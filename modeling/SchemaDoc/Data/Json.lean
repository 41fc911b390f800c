import SchemaDoc.Data.Basic
import SchemaDoc.Number.Style
import SchemaDoc.Text.Character

/-! # JSON text

Data as JSON, indented by two columns a level or on a single line, with keys in
byte order. There is no JSON number for an infinite value, so data that holds
one is not written at all.
-/

namespace SchemaDoc.Json

structure Infinite where
  negative : Bool
deriving DecidableEq, Repr

/-- Whether a character cannot stand for itself: quotes, backslashes and controls, the characters
with a meaning in markup, and the two separators that end a line of script. -/
def isEscaped (code : Nat) : Bool :=
  code < 0x20 || code == 0x22 || code == 0x5C || code == 0x3C || code == 0x3E || code == 0x26 ||
    code == 0x2028 || code == 0x2029

inductive Layout where
  | compact
  | indented
deriving DecidableEq, Repr

/-- The escape of a character of the basic plane. Only compact text has short escapes for the
backspace and the form feed. -/
def escape (l : Layout) (code : Nat) : Bytes :=
  if code = 0x22 then bytes "\\\""
  else if code = 0x5C then bytes "\\\\"
  else if code = 0x0A then bytes "\\n"
  else if code = 0x0D then bytes "\\r"
  else if code = 0x09 then bytes "\\t"
  else if l = .compact && code = 0x08 then bytes "\\b"
  else if l = .compact && code = 0x0C then bytes "\\f"
  else bytes "\\u" ++ Bytes.hexLower 4 code

/-- What a byte that belongs to no character becomes: the replacement character, which only
indented text escapes. -/
def replaced : Layout → Bytes
  | .compact => Character.encode Character.replacement
  | .indented => escape .indented Character.replacement

def string (l : Layout) (s : Bytes) : Bytes :=
  bytes "\"" ++
    s.mapCharacters (fun r own =>
      if r.isInvalid then replaced l
      else if isEscaped r.code then escape l r.code
      else own) ++
    bytes "\""

def boolean (b : Bool) : Bytes := if b then bytes "true" else bytes "false"

namespace Layout

def lineBreak : Layout → (depth : Nat) → Bytes
  | .compact, _ => []
  | .indented, depth => 0x0A :: Bytes.spaces (2 * depth)

def colon : Layout → Bytes
  | .compact => bytes ":"
  | .indented => bytes ": "

/-- Numbers are positional from a millionth up to, not including, 10 ^ 21. Only indented text pads
exponents. -/
def numberStyle : Layout → NumberStyle
  | .compact => ⟨-6, 21, 1⟩
  | .indented => ⟨-6, 21, 2⟩

end Layout

def number (l : Layout) (x : Binary64) : Except Infinite Bytes :=
  if x.isInfinite then .error ⟨x.negative⟩ else .ok (l.numberStyle.write x)

def enclose (l : Layout) (opening closing : UInt8) (depth : Nat) (parts : List Bytes) : Bytes :=
  if parts.isEmpty then [opening, closing]
  else
    opening :: l.lineBreak (depth + 1) ++
      Bytes.join (bytes "," ++ l.lineBreak (depth + 1)) parts ++ l.lineBreak depth ++ [closing]

mutual

/-- The text of data that stands at a level. -/
def write (l : Layout) (depth : Nat) : Data → Except Infinite Bytes
  | .null => .ok (bytes "null")
  | .boolean b => .ok (boolean b)
  | .integer n => .ok (Bytes.signed n)
  | .number x => number l x
  | .text s => .ok (string l s)
  | .list items => (writeItems l (depth + 1) items).map (enclose l 0x5B 0x5D depth)
  | .map entries =>
    (writeEntries l (depth + 1) entries).map fun parts =>
      enclose l 0x7B 0x7D depth <|
        (Data.sortEntries Bytes.le parts).map fun part => string l part.1 ++ l.colon ++ part.2

def writeItems (l : Layout) (depth : Nat) : List Data → Except Infinite (List Bytes)
  | [] => .ok []
  | item :: items =>
    match write l depth item with
    | .error e => .error e
    | .ok text => (writeItems l depth items).map (text :: ·)

def writeEntries (l : Layout) (depth : Nat) :
    List (Bytes × Data) → Except Infinite (List (Bytes × Bytes))
  | [] => .ok []
  | (key, value) :: entries =>
    match write l depth value with
    | .error e => .error e
    | .ok text => (writeEntries l depth entries).map ((key, text) :: ·)

end

/-- Indented text and the line feed behind it. -/
def writeIndented (d : Data) : Except Infinite Bytes :=
  (write .indented 0 d).map (· ++ [0x0A])

def writeLine (d : Data) : Except Infinite Bytes := (write .compact 0 d).map (· ++ [0x0A])

end SchemaDoc.Json
