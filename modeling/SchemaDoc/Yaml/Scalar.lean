import SchemaDoc.Text.Character
import SchemaDoc.Yaml.Resolve

/-! # Scalars

A text is written plain when that reads back as the same text, otherwise between
single quotes, between double quotes with escapes, or as a literal block. What
is not UTF-8 is written in base 64 under a tag.
-/

namespace SchemaDoc.Yaml

/-- The text of a scalar, and whether it has already ended its line. -/
structure Scalar where
  text : Bytes
  endsLine : Bool
deriving DecidableEq, Repr

/-- A line feed is a break, and so are four other characters. -/
def isBreak (code : Nat) : Bool :=
  code == 0x0A || code == 0x0D || code == 0x85 || code == 0x2028 || code == 0x2029

/-- The characters that may stand for themselves in double quotes and blocks. -/
def isRaw (code : Nat) : Bool :=
  code == 0x0A || (0x20 ≤ code && code ≤ 0x7E) || (0xA0 ≤ code && code ≤ 0xD7FF) ||
    (0xE000 ≤ code && code ≤ 0xFFFD && code != 0xFEFF)

private def isSpecial (code : Nat) : Bool := code != 0x09 && !isRaw code

private def isBlank (code : Nat) : Bool := code == 0x20 || code == 0x09

def hasPair (p q : Nat → Bool) (codes : List Nat) : Bool :=
  (codes.zip codes.tail).any fun pair => p pair.1 && q pair.2

def isSpaceCode (code : Nat) : Bool := code == 0x20

private def startsBlank : List Nat → Bool
  | [] => true
  | code :: _ => isBlank code

/-- The characters that cannot start a plain text: `# , [ ] { } & * ! | > ' " % @` and the grave
accent. -/
def isIndicator (code : Nat) : Bool :=
  [0x23, 0x2C, 0x5B, 0x5D, 0x7B, 0x7D, 0x26, 0x2A, 0x21, 0x7C, 0x3E, 0x27, 0x22, 0x25, 0x40,
    0x60].contains code

def hasIndicator (s : Bytes) (codes : List Nat) : Bool :=
  Bytes.startsWith (bytes "---") s || Bytes.startsWith (bytes "...") s ||
    (match codes with
      | [] => false
      | code :: rest =>
        isIndicator code || ((code == 0x3F || code == 0x2D) && startsBlank rest)) ||
    hasPair (· == 0x3A) isBlank codes || codes.getLast? == some 0x3A ||
    hasPair isSpaceCode (· == 0x23) codes

def isPlain (s : Bytes) (codes : List Nat) : Bool :=
  !((codes.head?.map isSpaceCode).getD false) && !((codes.getLast?.map isSpaceCode).getD false) &&
    !codes.any (fun code => code == 0x09 || isSpecial code || isBreak code) &&
    !hasIndicator s codes

def isSingleQuotable (codes : List Nat) : Bool :=
  !hasPair isBreak isSpaceCode codes && !hasPair isSpaceCode isBreak codes &&
    !codes.any (fun code => code == 0x09 || isSpecial code)

def isBlock (codes : List Nat) : Bool :=
  !((codes.getLast?.map isSpaceCode).getD false) && !hasPair isSpaceCode isBreak codes &&
    !codes.any isSpecial

/-- The letter that stands behind a backslash for a character. -/
def shortEscape? : Nat → Option UInt8
  | 0x00 => some 0x30
  | 0x07 => some 0x61
  | 0x08 => some 0x62
  | 0x09 => some 0x74
  | 0x0A => some 0x6E
  | 0x0B => some 0x76
  | 0x0C => some 0x66
  | 0x0D => some 0x72
  | 0x1B => some 0x65
  | 0x22 => some 0x22
  | 0x5C => some 0x5C
  | 0x85 => some 0x4E
  | 0xA0 => some 0x5F
  | 0x2028 => some 0x4C
  | 0x2029 => some 0x50
  | _ => none

def escapeCharacter (code : Nat) : Bytes :=
  match shortEscape? code with
  | some letter => [0x5C, letter]
  | none =>
    if code ≤ 0xFF then bytes "\\x" ++ Bytes.hexUpper 2 code
    else if code ≤ 0xFFFF then bytes "\\u" ++ Bytes.hexUpper 4 code
    else bytes "\\U" ++ Bytes.hexUpper 8 code

/-- A text between double quotes. Where it starts with a byte order mark, a reader could take it for
the start of a stream, so then no character stands for itself. -/
def doubleQuoted (s : Bytes) : Bytes :=
  let marked := Bytes.startsWith (Character.encode 0xFEFF) s
  bytes "\"" ++
    s.mapCharacters (fun r own =>
      if marked || !isRaw r.code || isBreak r.code || r.code == 0x22 || r.code == 0x5C then
        escapeCharacter r.code
      else own) ++
    bytes "\""

/-- Characters with their own bytes as a text, with `indent` columns before the first one behind a
break. -/
def indented (indent : Nat) (write : Nat → Bytes → Bytes) :
    (fresh : Bool) → List (Character × Bytes) → Bytes
  | _, [] => []
  | fresh, (r, own) :: rest =>
    if isBreak r.code then own ++ indented indent write true rest
    else
      (if fresh then Bytes.spaces indent else []) ++ write r.code own ++
        indented indent write false rest

def charactersWithBytes (s : Bytes) : List (Character × Bytes) :=
  attach s (Character.list s)
where
  attach : Bytes → List Character → List (Character × Bytes)
  | _, [] => []
  | s, r :: rest => (r, s.take r.width) :: attach (s.drop r.width) rest

def singleQuoted (indent : Nat) (s : Bytes) : Bytes :=
  bytes "'" ++
    indented indent (fun code own => if code = 0x27 then bytes "''" else own) false
      (charactersWithBytes s) ++
    bytes "'"

/-- What the header of a block says about the breaks at the end of its text: none, one, or more. -/
def chomping (codes : List Nat) : Bytes :=
  match codes.reverse with
  | [] => bytes "-"
  | [code] => if isBreak code then bytes "+" else bytes "-"
  | code :: before :: _ =>
    if !isBreak code then bytes "-" else if isBreak before then bytes "+" else []

/-- A text as a header and the lines below it. A break at the very start of the text is the one that
ends the header. -/
def literalBlock (indent : Nat) (s : Bytes) (codes : List Nat) : Scalar :=
  let startsWithSpace := (codes.head?.map isSpaceCode).getD false
  let startsWithBreak := (codes.head?.map isBreak).getD false
  ⟨bytes "|" ++ (if startsWithSpace || startsWithBreak then bytes "4" else []) ++
      chomping codes ++ (if startsWithBreak then [] else [0x0A]) ++
      indented indent (fun _ own => own) true (charactersWithBytes s),
    (codes.getLast?.map isBreak).getD false⟩

def sextet (n : Nat) : UInt8 :=
  if n < 26 then 0x41 + n.toUInt8
  else if n < 52 then 0x61 + (n - 26).toUInt8
  else if n < 62 then 0x30 + (n - 52).toUInt8
  else if n = 62 then 0x2B
  else 0x2F

def base64 : Bytes → Bytes
  | [] => []
  | [a] =>
    let n := a.toNat * 0x10000
    [sextet (n / 0x40000), sextet (n / 0x1000 % 64), 0x3D, 0x3D]
  | [a, b] =>
    let n := a.toNat * 0x10000 + b.toNat * 0x100
    [sextet (n / 0x40000), sextet (n / 0x1000 % 64), sextet (n / 0x40 % 64), 0x3D]
  | a :: b :: c :: s =>
    let n := a.toNat * 0x10000 + b.toNat * 0x100 + c.toNat
    sextet (n / 0x40000) :: sextet (n / 0x1000 % 64) :: sextet (n / 0x40 % 64) ::
      sextet (n % 64) :: base64 s

/-- A text cut into lines of seventy bytes, each ended by a line feed; `left` counts what still fits
on the line. -/
def cutLines : (left : Nat) → Bytes → Bytes
  | _, [] => [0x0A]
  | 0, b :: s => 0x0A :: b :: cutLines 69 s
  | left + 1, b :: s => b :: cutLines left s

/-- Bytes that are no text, under their tag. Seventy digits and more are cut into lines. -/
def binary (indent : Nat) (s : Bytes) : Scalar :=
  let digits := base64 s
  if digits.length < 70 then ⟨bytes "!!binary " ++ digits, false⟩
  else
    let lines := cutLines 70 digits
    let block := literalBlock indent lines ((Character.list lines).map Character.code)
    ⟨bytes "!!binary " ++ block.text, block.endsLine⟩

def Scalar.ofText (indent : Nat) (s : Bytes) : Scalar :=
  if !s.isValidUtf8 then binary indent s
  else
    let codes := (Character.list s).map Character.code
    if codes.contains 0x0A then
      if isBlock codes then literalBlock indent s codes else ⟨doubleQuoted s, false⟩
    else if readsOtherwise s then ⟨doubleQuoted s, false⟩
    else if isPlain s codes then ⟨s, false⟩
    else if isSingleQuotable codes then ⟨singleQuoted indent s, false⟩
    else ⟨doubleQuoted s, false⟩

end SchemaDoc.Yaml
