import SchemaDoc.Data.Json
import SchemaDoc.Text.Quoted

/-! # Log lines

An entry has a level, a message and named fields, and becomes a line of text or
a JSON object. A field never hides the time, level or message of its entry: one
with such a name is written under a longer name. Entries below the level of a
log are not written.
-/

namespace SchemaDoc.Log

inductive Level where
  | panic
  | fatal
  | error
  | warning
  | info
  | debug
  | trace
deriving DecidableEq, Repr

namespace Level

def label : Level → Bytes
  | .panic => bytes "panic"
  | .fatal => bytes "fatal"
  | .error => bytes "error"
  | .warning => bytes "warning"
  | .info => bytes "info"
  | .debug => bytes "debug"
  | .trace => bytes "trace"

/-- How much is written at a level. -/
def verbosity : Level → Nat
  | .panic => 0
  | .fatal => 1
  | .error => 2
  | .warning => 3
  | .info => 4
  | .debug => 5
  | .trace => 6

def all : List Level := [.panic, .fatal, .error, .warning, .info, .debug, .trace]

/-- The level of an entry with a name in any case; warnings have two names, and unknown names mean
`info`. -/
def ofLabel (name : Bytes) : Level :=
  let name := Bytes.lower name
  if name = bytes "warn" then .warning else (all.find? (·.label = name)).getD .info

/-- The level of a log with a name in any case; it is one of four, and unknown names mean `info`. -/
def ofName (name : Bytes) : Level :=
  let name := Bytes.lower name
  if name = bytes "error" then .error
  else if name = bytes "warn" then .warning
  else if name = bytes "debug" then .debug
  else .info

end Level

inductive Format where
  | text
  | json
deriving DecidableEq, Repr

structure FormatProblem where
  name : Bytes
deriving DecidableEq, Repr

def FormatProblem.message (p : FormatProblem) : Bytes :=
  bytes "unknown log format " ++ Quoted.text p.name

namespace Format

/-- The format with a name in any case; text is the default. -/
def ofName (name : Bytes) : Except FormatProblem Format :=
  let lowered := Bytes.lower name
  if lowered = bytes "text" || lowered.isEmpty then .ok .text
  else if lowered = bytes "json" then .ok .json
  else .error ⟨name⟩

end Format

structure Entry where
  level : Level
  message : Bytes
  fields : List (Bytes × Data)

namespace Entry

/-- The names that belong to the entry itself. -/
def ownNames : List Bytes := [bytes "time", bytes "msg", bytes "level", bytes "logrus_error"]

def renamed (name : Bytes) : Bytes := bytes "fields." ++ name

/-- The fields under names that are not the entry's own. A renamed field replaces one that had the
longer name before. -/
def freeFields (fields : List (Bytes × Data)) : List (Bytes × Data) :=
  let taken := (fields.map Prod.fst).filter ownNames.contains
  (fields.filter fun f => !(taken.map renamed).contains f.1).map fun f =>
    if ownNames.contains f.1 then (renamed f.1, f.2) else f

end Entry

def isPlain (b : UInt8) : Bool :=
  Bytes.isLetter b || Bytes.isDigit b || (bytes "-._/@^+").contains b

/-- A value with quotes where it needs them; the empty value needs none. -/
def quoteIfNeeded (value : Bytes) : Bytes := if value.all isPlain then value else Quoted.text value

/-- Numbers are positional from a ten thousandth up to, not including, a million. -/
def numberStyle : NumberStyle := ⟨-4, 6, 2⟩

def number (x : Binary64) : Bytes :=
  if x.isInfinite then if x.negative then bytes "-Inf" else bytes "+Inf"
  else numberStyle.write x

mutual

def flat : Data → Bytes
  | .null => bytes "<nil>"
  | .boolean b => Json.boolean b
  | .integer n => Bytes.signed n
  | .number x => number x
  | .text s => s
  | .list items => bytes "[" ++ Bytes.join (bytes " ") (flatItems items) ++ bytes "]"
  | .map entries =>
    let parts := (Data.sortEntries Bytes.le (flatEntries entries)).map fun (key, text) =>
      key ++ bytes ":" ++ text
    bytes "map[" ++ Bytes.join (bytes " ") parts ++ bytes "]"

def flatItems : List Data → List Bytes
  | [] => []
  | item :: items => flat item :: flatItems items

def flatEntries : List (Bytes × Data) → List (Bytes × Bytes)
  | [] => []
  | (key, value) :: entries => (key, flat value) :: flatEntries entries

end

namespace Entry

def pair (name : Bytes) (value : Data) : Bytes := name ++ bytes "=" ++ quoteIfNeeded (flat value)

/-- Time, level and message, the last only if there is one, then the fields by name. -/
def textLine (time : Bytes) (e : Entry) : Bytes :=
  let own := [(bytes "time", Data.text time), (bytes "level", .text e.level.label)] ++
    (if e.message.isEmpty then [] else [(bytes "msg", .text e.message)])
  let fields := Data.sortEntries Bytes.le (freeFields e.fields)
  Bytes.join (bytes " ") ((own ++ fields).map fun (name, value) => pair name value) ++ [0x0A]

def jsonLine (time : Bytes) (e : Entry) : Bytes :=
  let own := [(bytes "time", Data.text time), (bytes "level", .text e.level.label),
    (bytes "msg", .text e.message)]
  match Json.writeLine (.map (own ++ freeFields e.fields)) with
  | .ok line => line
  | .error _ => []

def line (format : Format) (time : Bytes) (e : Entry) : Bytes :=
  match format with
  | .text => e.textLine time
  | .json => e.jsonLine time

end Entry

end SchemaDoc.Log

namespace SchemaDoc

/-- A log writes entries up to its level, or none at all if it has no level. -/
structure Log where
  level : Option Log.Level
  format : Log.Format
deriving DecidableEq, Repr

namespace Log

def off : Log := ⟨none, .text⟩

def ofNames (level format : Bytes) : Except FormatProblem Log :=
  match Format.ofName format with
  | .ok f => .ok ⟨some (.ofName level), f⟩
  | .error p => .error p

def shows (log : Log) (level : Level) : Bool :=
  match log.level with
  | some l => level.verbosity ≤ l.verbosity
  | none => false

/-- The text of an entry; empty for an entry that is not shown. -/
def write (log : Log) (time : Bytes) (e : Entry) : Bytes :=
  if log.shows e.level then e.line log.format time else []

end Log

end SchemaDoc
