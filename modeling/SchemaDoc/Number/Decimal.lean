import SchemaDoc.Text.Bytes

/-! # Exact decimal numbers

The number that a literal denotes, kept exactly as an integer times a power of
ten. Exponents are limited to 32 bits; a literal whose written exponent or whose
resulting exponent needs more denotes no number.
-/

namespace SchemaDoc

/-- The number `coefficient * 10 ^ exponent`. -/
structure Decimal where
  coefficient : Int
  exponent : Int
deriving DecidableEq, Repr

namespace Decimal

def exponentFits (e : Int) : Bool := -0x80000000 ≤ e && e < 0x80000000

private def isExponentMark (b : UInt8) : Bool := b == 0x65 || b == 0x45

def signedValue : Bytes → Int
  | 0x2D :: digits => -(Bytes.digitsValue digits)
  | 0x2B :: digits => Bytes.digitsValue digits
  | digits => Bytes.digitsValue digits

/-- The number denoted by a literal of the form `-? digits (. digits)? (e [+-]? digits)?`. -/
def ofLiteral? (literal : Bytes) : Option Decimal :=
  let mantissa := literal.takeWhile (!isExponentMark ·)
  let written := signedValue ((literal.dropWhile (!isExponentMark ·)).drop 1)
  let whole := mantissa.takeWhile (· != 0x2E)
  let fraction := (mantissa.dropWhile (· != 0x2E)).drop 1
  let exponent := written - fraction.length
  if exponentFits written && exponentFits exponent then
    some ⟨signedValue (whole ++ fraction), exponent⟩
  else none

end Decimal

end SchemaDoc
