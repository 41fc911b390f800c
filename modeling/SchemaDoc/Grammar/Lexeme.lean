import SchemaDoc.Text.Bytes

/-! # Lexemes

The four classes of tokens that are not fixed words: names, numbers, strings and
comments. A class is given by the length of its longest lexeme at the start of a
text, so a lexeme is never read in part. All are decided on single bytes.
-/

namespace SchemaDoc.Grammar

inductive Lexeme where
  | name
  | number
  | string
  | comment
deriving DecidableEq, Repr

def isNameStart (b : UInt8) : Bool := b == 0x5F || Bytes.isLetter b

def isNameContinue (b : UInt8) : Bool := b == 0x5F || Bytes.isDigit b || Bytes.isLetter b

def runLength (p : UInt8 → Bool) (s : Bytes) : Nat := (s.takeWhile p).length

namespace Lexeme

def name? : Bytes → Option Nat
  | [] => none
  | b :: s => if isNameStart b then some (runLength isNameContinue s + 1) else none

/-- A zero, or digits that do not start with one. -/
def whole? : Bytes → Option Nat
  | [] => none
  | b :: s =>
    if b = 0x30 then some 1
    else if Bytes.isDigit b then some (runLength Bytes.isDigit s + 1)
    else none

/-- The length of a point and the digits behind it, zero unless both are there. -/
def fractionLength : Bytes → Nat
  | 0x2E :: s => match runLength Bytes.isDigit s with
    | 0 => 0
    | n + 1 => n + 2
  | _ => 0

def signLength : Bytes → Nat
  | 0x2B :: _ => 1
  | 0x2D :: _ => 1
  | _ => 0

/-- The length of an exponent mark, an optional sign and digits, zero unless digits are there. -/
def exponentLength : Bytes → Nat
  | [] => 0
  | b :: s =>
    if b = 0x65 || b = 0x45 then
      match runLength Bytes.isDigit (s.drop (signLength s)) with
      | 0 => 0
      | n + 1 => 1 + signLength s + (n + 1)
    else 0

def minusLength : Bytes → Nat
  | 0x2D :: _ => 1
  | _ => 0

def number? (s : Bytes) : Option Nat :=
  let m := minusLength s
  (whole? (s.drop m)).map fun w =>
    let f := fractionLength (s.drop (m + w))
    m + w + f + exponentLength (s.drop (m + w + f))

/-- The length up to and with the closing quote of a string whose opening quote was read. -/
def stringTail? : Bytes → Option Nat
  | [] => none
  | 0x22 :: _ => some 1
  | 0x0A :: _ => none
  | 0x5C :: 0x5C :: s => (stringTail? s).map (· + 2)
  | 0x5C :: 0x22 :: s => (stringTail? s).map (· + 2)
  | 0x5C :: _ => none
  | _ :: s => (stringTail? s).map (· + 1)

def string? : Bytes → Option Nat
  | 0x22 :: s => (stringTail? s).map (· + 1)
  | _ => none

def comment? : Bytes → Option Nat
  | 0x23 :: s => some (runLength (fun b => b != 0x0D && b != 0x0A) s + 1)
  | _ => none

def length? : Lexeme → Bytes → Option Nat
  | .name, s => name? s
  | .number, s => number? s
  | .string, s => string? s
  | .comment, s => comment? s

end Lexeme

/-- The words that are never the name of a type or of an enum value. -/
def reservedWords : List Bytes :=
  [bytes "type", bytes "interface", bytes "union", bytes "scalar", bytes "enum", bytes "input",
    bytes "extend", bytes "null"]

def isReserved (word : Bytes) : Bool := reservedWords.contains word

/-- The text that a string literal denotes: a backslash stands for the character behind it. -/
def unescape : Bytes → Bytes
  | 0x5C :: b :: s => b :: unescape s
  | b :: s => b :: unescape s
  | [] => []

end SchemaDoc.Grammar
