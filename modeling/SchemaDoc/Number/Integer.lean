import SchemaDoc.Text.Bytes

/-! # Written integers

Integers of 64 bits in a given base, or in the base that the text itself names:
`0x`, `0o` and `0b` in either case, a leading zero for eight, and ten otherwise.
A text is read from the left, so a number that has grown too large is out of
range whatever stands behind it.
-/

namespace SchemaDoc.Integer

inductive Problem where
  | malformed
  | outOfRange
deriving DecidableEq, Repr

private def digit? (b : UInt8) : Option Nat :=
  if Bytes.isDigit b then some (b.toNat - 0x30)
  else if Bytes.isLower b then some (b.toNat - 0x57)
  else if Bytes.isUpper b then some (b.toNat - 0x37)
  else none

/-- The digits of `s` behind a number `n` that is already read. Underscores count for nothing
where they are allowed. -/
private def scan (base : Nat) (underscores : Bool) (n : Nat) : Bytes → Except Problem Nat
  | [] => .ok n
  | b :: s =>
    if underscores && b == 0x5F then scan base underscores n s
    else match digit? b with
      | none => .error .malformed
      | some d =>
        if base ≤ d then .error .malformed
        else if 0x10000000000000000 ≤ n * base + d then .error .outOfRange
        else scan base underscores (n * base + d) s

private def baseMark? (b : UInt8) : Option Nat :=
  if b = 0x62 || b = 0x42 then some 2
  else if b = 0x6F || b = 0x4F then some 8
  else if b = 0x78 || b = 0x58 then some 16
  else none

private def splitBase : Bytes → Nat × Bytes
  | 0x30 :: mark :: b :: s => match baseMark? mark with
    | some base => (base, b :: s)
    | none => (8, mark :: b :: s)
  | 0x30 :: s => (8, s)
  | s => (10, s)

private def isHexDigit (b : UInt8) : Bool := (Bytes.hexValue? b).isSome

/-- Whether each underscore stands behind and before a digit; `before` tells whether a digit or a
base mark was just read, `pending` whether an underscore was. -/
private def separates (isDigit : UInt8 → Bool) : (before pending : Bool) → Bytes → Bool
  | _, pending, [] => !pending
  | before, pending, b :: s =>
    if isDigit b then separates isDigit true false s
    else if b = 0x5F then before && separates isDigit false true s
    else !pending && separates isDigit false false s

def underscoresSeparate (s : Bytes) : Bool :=
  let s := match s with
    | 0x2B :: s => s
    | 0x2D :: s => s
    | s => s
  match s with
  | 0x30 :: mark :: s => match baseMark? mark with
    | some base => separates (if base = 16 then isHexDigit else Bytes.isDigit) true false s
    | none => separates Bytes.isDigit false false (0x30 :: mark :: s)
  | s => separates Bytes.isDigit false false s

/-- A number without a sign, in the base that it names. -/
def unsigned (s : Bytes) : Except Problem Nat :=
  if s.isEmpty then .error .malformed
  else
    let (base, digits) := splitBase s
    match scan base true 0 digits with
    | .error p => .error p
    | .ok n =>
      if digits.contains 0x5F && !underscoresSeparate s then .error .malformed else .ok n

def unsignedIn (base : Nat) (s : Bytes) : Except Problem Nat :=
  if s.isEmpty then .error .malformed else scan base false 0 s

private def withSign (magnitude : Bytes → Except Problem Nat) (s : Bytes) : Except Problem Int :=
  let (negative, s) := match s with
    | 0x2B :: s => (false, s)
    | 0x2D :: s => (true, s)
    | s => (false, s)
  match magnitude s with
  | .error p => .error p
  | .ok n =>
    if negative then if 0x8000000000000000 < n then .error .outOfRange else .ok (-(n : Int))
    else if 0x8000000000000000 ≤ n then .error .outOfRange else .ok n

/-- A number with an optional sign, in the base that it names. -/
def signed (s : Bytes) : Except Problem Int := withSign unsigned s

def signedIn (base : Nat) (s : Bytes) : Except Problem Int := withSign (unsignedIn base) s

end SchemaDoc.Integer
