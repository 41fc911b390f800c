import SchemaDoc.Number.Integer
import SchemaDoc.Output

/-! # Settings

What a run can be told: a record with a default for each setting, and the texts
that each setting takes. A setting is known to the environment as a variable and
to the command line as a flag, some flags also by a letter.
-/

namespace SchemaDoc

structure Settings where
  logLevel : Bytes
  logFormat : Bytes
  output : Bytes
  descriptions : Bool
  /-- The most files that are read at once. -/
  concurrency : Int
  /-- The name of all sources in faults; when it is empty each file goes by its path. -/
  sourceName : Bytes
  /-- The directory that targets are taken from. -/
  root : Bytes
  watch : Bool
deriving DecidableEq, Repr

namespace Settings

def initial : Settings where
  logLevel := bytes "info"
  logFormat := bytes "text"
  output := bytes "json"
  descriptions := false
  concurrency := 0
  sourceName := []
  root := bytes "."
  watch := false

end Settings

inductive Setting where
  | logLevel
  | logFormat
  | output
  | descriptions
  | concurrency
  | sourceName
  | root
  | watch
deriving DecidableEq, Repr

inductive ValueProblem where
  | notBoolean (value : Bytes)
  | notInteger (value : Bytes) (problem : Integer.Problem)
deriving DecidableEq, Repr

namespace ValueProblem

def value : ValueProblem → Bytes
  | .notBoolean value => value
  | .notInteger value _ => value

def expected : ValueProblem → Bytes
  | .notBoolean _ => bytes "bool"
  | .notInteger _ _ => bytes "int"

def message : ValueProblem → Bytes
  | .notBoolean value =>
    bytes "strconv.ParseBool: parsing " ++ Quoted.text value ++ bytes ": invalid syntax"
  | .notInteger value problem =>
    bytes "strconv.ParseInt: parsing " ++ Quoted.text value ++
      match problem with
      | .malformed => bytes ": invalid syntax"
      | .outOfRange => bytes ": value out of range"

end ValueProblem

namespace Setting

/-- All settings, in the order in which the environment is read. -/
def all : List Setting :=
  [.logLevel, .logFormat, .output, .descriptions, .concurrency, .sourceName, .root, .watch]

def variableName : Setting → Bytes
  | .logLevel => bytes "GQLSDL_LOG_LEVEL"
  | .logFormat => bytes "GQLSDL_LOG_FORMAT"
  | .output => bytes "GQLSDL_OUTPUT"
  | .descriptions => bytes "GQLSDL_DESCRIPTIONS"
  | .concurrency => bytes "GQLSDL_CONCURRENCY"
  | .sourceName => bytes "GQLSDL_SOURCE_NAME"
  | .root => bytes "GQLSDL_ROOT"
  | .watch => bytes "GQLSDL_WATCH"

def label : Setting → Bytes
  | .logLevel => bytes "LogLevel"
  | .logFormat => bytes "LogFormat"
  | .output => bytes "Output"
  | .descriptions => bytes "Descriptions"
  | .concurrency => bytes "Concurrency"
  | .sourceName => bytes "SourceName"
  | .root => bytes "Root"
  | .watch => bytes "Watch"

def flagName : Setting → Bytes
  | .logLevel => bytes "log-level"
  | .logFormat => bytes "log-format"
  | .output => bytes "output"
  | .descriptions => bytes "descriptions"
  | .concurrency => bytes "concurrency"
  | .sourceName => bytes "source-name"
  | .root => bytes "root"
  | .watch => bytes "watch"

def letter? : Setting → Option UInt8
  | .output => some 0x6F
  | .concurrency => some 0x6A
  | .watch => some 0x77
  | _ => none

/-- A switch is turned on by its flag alone; all other flags take a value. -/
def isSwitch : Setting → Bool
  | .descriptions => true
  | .watch => true
  | _ => false

def ofFlagName? (name : Bytes) : Option Setting := all.find? (·.flagName == name)

def ofLetter? (letter : UInt8) : Option Setting := all.find? (·.letter? == some letter)

/-- The flag as messages name it, after its letter if it has one. -/
def flagTitle (s : Setting) : Bytes :=
  match s.letter? with
  | some letter => bytes "-" ++ [letter] ++ bytes ", --" ++ s.flagName
  | none => bytes "--" ++ s.flagName

end Setting

namespace Settings

def boolean? (value : Bytes) : Option Bool :=
  if ["1", "t", "T", "TRUE", "true", "True"].any (bytes · = value) then some true
  else if ["0", "f", "F", "FALSE", "false", "False"].any (bytes · = value) then some false
  else none

private def withBoolean (value : Bytes) (f : Bool → Settings) : Except ValueProblem Settings :=
  match boolean? value with
  | some b => .ok (f b)
  | none => .error (.notBoolean value)

private def withInteger (value : Bytes) (f : Int → Settings) : Except ValueProblem Settings :=
  match Integer.signed value with
  | .ok n => .ok (f n)
  | .error p => .error (.notInteger value p)

/-- Settings with one of them set to the value that a text denotes. -/
def set (s : Settings) (setting : Setting) (value : Bytes) : Except ValueProblem Settings :=
  match setting with
  | .logLevel => .ok { s with logLevel := value }
  | .logFormat => .ok { s with logFormat := value }
  | .output => .ok { s with output := value }
  | .descriptions => withBoolean value fun b => { s with descriptions := b }
  | .concurrency => withInteger value fun n => { s with concurrency := n }
  | .sourceName => .ok { s with sourceName := value }
  | .root => .ok { s with root := value }
  | .watch => withBoolean value fun b => { s with watch := b }

end Settings

/-- Why there are no settings to run with. Asking for help is one of the reasons. -/
inductive SettingsProblem where
  | help
  | environment (setting : Setting) (problem : ValueProblem)
  | flag (setting : Setting) (problem : ValueProblem)
  | malformedFlag (argument : Bytes)
  | unknownFlag (name : Bytes)
  | unknownLetter (letter : UInt8) (group : Bytes)
  | flagNeedsValue (argument : Bytes)
  | letterNeedsValue (letter : UInt8)
  | output (problem : OutputProblem)
  | watchedInput
deriving DecidableEq, Repr

namespace SettingsProblem

def message : SettingsProblem → Bytes
  | .help => bytes "pflag: help requested"
  | .environment setting problem =>
    bytes "envconfig.Process: assigning " ++ setting.variableName ++ bytes " to " ++
      setting.label ++ bytes ": converting '" ++ problem.value ++ bytes "' to type " ++
      problem.expected ++ bytes ". details: " ++ problem.message
  | .flag setting problem =>
    bytes "invalid argument " ++ Quoted.text problem.value ++ bytes " for " ++
      Quoted.text setting.flagTitle ++ bytes " flag: " ++ problem.message
  | .malformedFlag argument => bytes "bad flag syntax: " ++ argument
  | .unknownFlag name => bytes "unknown flag: --" ++ name
  | .unknownLetter letter group =>
    bytes "unknown shorthand flag: " ++ Quoted.single letter.toNat ++ bytes " in -" ++ group
  | .flagNeedsValue argument => bytes "flag needs an argument: " ++ argument
  | .letterNeedsValue letter =>
    bytes "flag needs an argument: " ++ Quoted.single letter.toNat ++ bytes " in -" ++ [letter]
  | .output problem => problem.message
  | .watchedInput => bytes "standard input cannot be watched"

end SettingsProblem

end SchemaDoc
