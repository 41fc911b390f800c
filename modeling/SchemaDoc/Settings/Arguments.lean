import SchemaDoc.Settings.Basic

/-! # Arguments

An argument that starts with two dashes is a flag, one that starts with a single
dash a group of letters; a lone dash, the empty argument and everything else are
targets. Two dashes alone make targets of all arguments behind them. Flags and
targets may be mixed.
-/

namespace SchemaDoc.Argument

/-- What a flag or a group of letters asks for: settings with their values, and at most one
setting whose value is the next argument, with the problem that arises if there is none. -/
structure Request where
  assignments : List (Setting × Bytes)
  awaiting : Option (Setting × SettingsProblem)
deriving DecidableEq, Repr

namespace Request

def assign (setting : Setting) (value : Bytes) : Request := ⟨[(setting, value)], none⟩

def await (setting : Setting) (otherwise : SettingsProblem) : Request :=
  ⟨[], some (setting, otherwise)⟩

end Request

/-- The value that a switch takes when it is given none. -/
def switchedOn : Bytes := bytes "true"

def flag (argument : Bytes) : Except SettingsProblem Request :=
  let body := argument.drop 2
  let (name, value) := Bytes.cut 0x3D body
  if name.isEmpty || Bytes.startsWith [0x2D] body then .error (.malformedFlag argument)
  else match Setting.ofFlagName? name with
    | none => if name = bytes "help" then .error .help else .error (.unknownFlag name)
    | some setting => match value with
      | some value => .ok (.assign setting value)
      | none =>
        if setting.isSwitch then .ok (.assign setting switchedOn)
        else .ok (.await setting (.flagNeedsValue argument))

/-- The request of a group of letters. A value starts behind an equals sign, or right behind the
letter of a setting that is no switch; what is reserved for test runs is passed over. -/
def letters : Bytes → Except SettingsProblem Request
  | [] => .ok ⟨[], none⟩
  | letter :: rest =>
    if Bytes.startsWith (bytes "test.") (letter :: rest) then .ok ⟨[], none⟩
    else match Setting.ofLetter? letter with
      | none =>
        if letter = 0x68 then .error .help else .error (.unknownLetter letter (letter :: rest))
      | some setting => match rest with
        | 0x3D :: b :: value => .ok (.assign setting (b :: value))
        | _ =>
          if setting.isSwitch then
            match letters rest with
            | .error p => .error p
            | .ok r => .ok ⟨(setting, switchedOn) :: r.assignments, r.awaiting⟩
          else if rest.isEmpty then .ok (.await setting (.letterNeedsValue letter))
          else .ok (.assign setting rest)

def isTarget (argument : Bytes) : Bool :=
  !Bytes.startsWith [0x2D] argument || argument.length == 1

def request (argument : Bytes) : Except SettingsProblem Request :=
  if Bytes.startsWith (bytes "--") argument then flag argument else letters (argument.drop 1)

def assign (s : Settings) (setting : Setting) (value : Bytes) : Except SettingsProblem Settings :=
  match s.set setting value with
  | .ok s => .ok s
  | .error p => .error (.flag setting p)

def assignAll (s : Settings) : List (Setting × Bytes) → Except SettingsProblem Settings
  | [] => .ok s
  | (setting, value) :: rest => match assign s setting value with
    | .error p => .error p
    | .ok s => assignAll s rest

/-- The settings and targets of arguments; the first problem ends the reading. -/
def read (s : Settings) : List Bytes → Except SettingsProblem (Settings × List Bytes)
  | [] => .ok (s, [])
  | argument :: rest =>
    if isTarget argument then
      (read s rest).map fun (s, targets) => (s, argument :: targets)
    else if argument = bytes "--" then .ok (s, rest)
    else match request argument with
      | .error p => .error p
      | .ok r => match assignAll s r.assignments with
        | .error p => .error p
        | .ok s => match r.awaiting with
          | none => read s rest
          | some (setting, otherwise) => match rest with
            | [] => .error otherwise
            | value :: rest => match assign s setting value with
              | .error p => .error p
              | .ok s => read s rest

end SchemaDoc.Argument
