import SchemaDoc.Number.Binary64
import SchemaDoc.Number.Integer
import SchemaDoc.Yaml.Timestamp

/-! # Texts that read as something else

Without quotes some texts would be read back as null, as a truth value, as a
number or as a time. The rule follows the readers of both versions of the format
in use: it counts the older words for truth values and numbers to base sixty.
-/

namespace SchemaDoc.Yaml

/-- Words for null, truth values, and the numbers that have no digits. -/
def reservedWords : List Bytes :=
  [[], bytes "~", bytes "null", bytes "Null", bytes "NULL",
    bytes "true", bytes "True", bytes "TRUE", bytes "false", bytes "False", bytes "FALSE",
    bytes "y", bytes "Y", bytes "yes", bytes "Yes", bytes "YES",
    bytes "n", bytes "N", bytes "no", bytes "No", bytes "NO",
    bytes "on", bytes "On", bytes "ON", bytes "off", bytes "Off", bytes "OFF",
    bytes ".nan", bytes ".NaN", bytes ".NAN", bytes ".inf", bytes ".Inf", bytes ".INF",
    bytes "+.inf", bytes "+.Inf", bytes "+.INF", bytes "-.inf", bytes "-.Inf", bytes "-.INF"]

def dropSign : Bytes → Bytes
  | 0x2B :: s => s
  | 0x2D :: s => s
  | s => s

/-- The value of the digits of an exponent. Digits that come after the value has reached ten thousand
are not counted. -/
def exponentValue (digits : Bytes) : Nat :=
  digits.foldl (fun n b => if n < 10000 then 10 * n + (b.toNat - 0x30) else n) 0

def exponent? : Bytes → Option Int
  | [] => some 0
  | mark :: s =>
    let digits := dropSign s
    if (mark == 0x65 || mark == 0x45) && !digits.isEmpty && digits.all Bytes.isDigit then
      some (if s.head? = some 0x2D then -(exponentValue digits : Int) else exponentValue digits)
    else none

/-- Whether a text is a decimal number, with a point or an exponent or without, whose value is not
rounded to an infinite one. -/
def isFiniteDecimal (s : Bytes) : Bool :=
  let s := dropSign s
  let whole := s.takeWhile Bytes.isDigit
  let rest := s.dropWhile Bytes.isDigit
  let (fraction, rest) := match rest with
    | 0x2E :: t => (t.takeWhile Bytes.isDigit, t.dropWhile Bytes.isDigit)
    | t => ([], t)
  match exponent? rest with
  | none => false
  | some e =>
    let coefficient := Bytes.digitsValue (whole ++ fraction)
    !(whole.isEmpty && fraction.isEmpty) &&
      (coefficient == 0 ||
        Binary64.magnitudeOf coefficient (e - fraction.length) != infiniteMagnitude)

private def succeeds {ε α : Type} : Except ε α → Bool
  | .ok _ => true
  | .error _ => false

/-- Whether digits behind a base mark, which may have a sign of their own, are an integer. -/
private def isMarkedInteger (mark : Bytes) (base : Nat) (s : Bytes) : Bool :=
  match Bytes.strip? mark s with
  | none => false
  | some digits =>
    succeeds (Integer.signedIn base digits) || succeeds (Integer.unsignedIn base digits)

private def isNegatedMarkedInteger (mark : Bytes) (base : Nat) (s : Bytes) : Bool :=
  match Bytes.strip? (0x2D :: mark) s with
  | none => false
  | some digits => succeeds (Integer.signedIn base (0x2D :: digits))

def isInteger (s : Bytes) : Bool :=
  succeeds (Integer.signed s) || succeeds (Integer.unsigned s) ||
    isMarkedInteger (bytes "0b") 2 s || isNegatedMarkedInteger (bytes "0b") 2 s ||
    isMarkedInteger (bytes "0o") 8 s || isNegatedMarkedInteger (bytes "0o") 8 s

/-- A group of a number to base sixty: one digit, or two of which the first is below six. -/
private def isSixtieth : Bytes → Bool
  | [a] => Bytes.isDigit a
  | [a, b] => 0x30 ≤ a && a ≤ 0x35 && Bytes.isDigit b
  | _ => false

private def isDigitOrUnderscore (b : UInt8) : Bool := Bytes.isDigit b || b == 0x5F

def isSexagesimal (s : Bytes) : Bool :=
  let s := dropSign s
  let rest := s.dropWhile isDigitOrUnderscore
  let fraction := (rest.dropWhile (· != 0x2E)).drop 1
  ((s.head?.map Bytes.isDigit).getD false) &&
    (match Bytes.split 0x3A (rest.takeWhile (· != 0x2E)) with
      | [] :: group :: groups => (group :: groups).all isSixtieth
      | _ => false) &&
    fraction.all isDigitOrUnderscore

def readsOtherwise (s : Bytes) : Bool :=
  reservedWords.contains s ||
    match s with
    | [] => true
    | b :: _ =>
      let bare := s.filter (· != 0x5F)
      if b = 0x2E then Integer.underscoresSeparate s && isFiniteDecimal bare
      else if b = 0x2B || b = 0x2D || Bytes.isDigit b then
        isTimestamp s || isInteger bare || isFiniteDecimal bare || isSexagesimal s
      else false

end SchemaDoc.Yaml
