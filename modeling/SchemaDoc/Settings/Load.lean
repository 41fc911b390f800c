import SchemaDoc.Settings.Arguments

/-! # Loading settings

The environment sets the defaults and arguments override them. A variable that
is set counts even when it is empty.
-/

namespace SchemaDoc

def inputTarget : Bytes := bytes "-"

namespace Settings

/-- Settings as some of the environment's variables tell; the first one that cannot be used is the
problem. -/
def readVariables (environment : Bytes → Option Bytes) (s : Settings) :
    List Setting → Except SettingsProblem Settings
  | [] => .ok s
  | setting :: rest => match environment setting.variableName with
    | none => readVariables environment s rest
    | some value => match s.set setting value with
      | .error p => .error (.environment setting p)
      | .ok s => readVariables environment s rest

/-- Without a limit of its own a run works on as many files at once as there are processors. -/
def limited (processors : Nat) (s : Settings) : Settings :=
  if s.concurrency < 1 then { s with concurrency := processors } else s

def load (environment : Bytes → Option Bytes) (processors : Nat) (arguments : List Bytes) :
    Except SettingsProblem (Settings × List Bytes) :=
  match readVariables environment initial Setting.all with
  | .error p => .error p
  | .ok s => match Argument.read s arguments with
    | .error p => .error p
    | .ok (s, targets) => match OutputFormat.ofName s.output with
      | .error p => .error (.output p)
      | .ok _ =>
        if s.watch && targets.contains inputTarget then .error .watchedInput
        else .ok (s.limited processors, targets)

end Settings

end SchemaDoc
