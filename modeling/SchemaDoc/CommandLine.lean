import SchemaDoc.Pass.Run
import SchemaDoc.Watch

/-! # The command line

One invocation of the program: settings and a log are made first, a problem with
either ends it with status two, and then the targets are passed over once.
-/

namespace SchemaDoc

structure Invocation where
  arguments : List Bytes
  environment : Bytes → Option Bytes
  processors : Nat
  workingDirectory : Bytes
  /-- All files of the machine. -/
  disk : Store
  input : Input
  outputOpen : Bool
  cancelled : Bool
  time : Bytes
  elapsed : Data
  order : Pass.MapOrder := .listed

namespace Invocation

def usage : Bytes := bytes "usage: gqlsdl [flags] FILE|DIR..."

/-- The end of an invocation that was not understood. -/
def refused (message : Bytes) : Completion := ⟨2, [], Pass.line message⟩

def root (i : Invocation) (s : Settings) : Bytes := Path.absolute i.workingDirectory s.root

def context (i : Invocation) (s : Settings) (log : Log) : PassContext where
  store := i.disk.below (i.root s)
  input := i.input
  outputOpen := i.outputOpen
  cancelled := i.cancelled
  log := log
  time := i.time
  elapsed := i.elapsed
  order := i.order

/-- The first pass of an invocation that watches its targets, and what comes before it. Whatever
becomes of the pass, watching itself ends well. -/
def watch (i : Invocation) (s : Settings) (log : Log) (targets : List Bytes) : Completion :=
  match Watch.directories i.disk (i.root s) targets with
  | .error p => refused p.message
  | .ok directories =>
    let watching := directories.flatMap fun d =>
      log.write i.time ⟨.debug, bytes "watching", [(bytes "dir", .text d)]⟩
    let pass := Pass.run s (i.context s log) targets
    ⟨0, pass.output, watching ++ pass.errors⟩

/-- The whole invocation. Asking for help is no failure. -/
def run (i : Invocation) : Completion :=
  match Settings.load i.environment i.processors i.arguments with
  | .error .help => ⟨0, [], []⟩
  | .error p => refused p.message
  | .ok (s, targets) => match Log.ofNames s.logLevel s.logFormat with
    | .error p => refused p.message
    | .ok log =>
      if targets.isEmpty then refused usage
      else if s.watch then i.watch s log targets
      else Pass.run s (i.context s log) targets

end Invocation

end SchemaDoc
