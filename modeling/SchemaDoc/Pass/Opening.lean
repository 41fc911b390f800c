import SchemaDoc.Pass.Context
import SchemaDoc.Report

/-! # Opening targets

A pass opens its targets in their order and gathers the files they stand for. A
target that leads to no file is reported; any other failure keeps the targets
behind it from being opened.
-/

namespace SchemaDoc.Pass

/-- Failures with these codes are confined to one file or target. -/
def harmless : List Bytes :=
  [Code.fileNotFound, Code.expected, Code.unexpectedCharacter, Code.unexpectedNode,
    Code.inputFieldArguments, Code.invalidNumber, Code.invalidString]

inductive Item where
  | input
  | file (path : Bytes)
deriving DecidableEq, Repr

namespace Item

def path : Item → Bytes
  | .input => inputTarget
  | .file path => path

/-- What reading an item yields, with what is left of standard input. -/
def body (store : Store) (input : Input) : Item → Except Fault Bytes
  | .input => input.body
  | .file path => store.body path

end Item

structure Opening where
  items : List Item
  report : Report
  log : Bytes
  /-- The fault that keeps the other targets from being opened. -/
  fatal : Option Fault
deriving DecidableEq, Repr

namespace Opening

def start : Opening := ⟨[], .empty harmless, [], none⟩

def step (c : PassContext) (o : Opening) (target : Bytes) : Opening :=
  if o.fatal.isSome then o
  else if target = inputTarget then { o with items := o.items ++ [.input] }
  else
    let log := o.log ++
      c.log.write c.time ⟨.debug, bytes "opening", [(bytes "target", .text target)]⟩
    match c.store.locate isSchemaFile target with
    | .ok paths => { o with items := o.items ++ paths.map .file, log := log }
    | .error f =>
      { o with
        report := o.report.add f
        log := log
        fatal := if o.report.isFatal f then some f else none }

/-- All targets in their order, up to the first failure that is not harmless. -/
def ofTargets (c : PassContext) (targets : List Bytes) : Opening := targets.foldl (step c) start

end Opening

end SchemaDoc.Pass
