import SchemaDoc.Number.Decimal

/-! # Binary floating point

The finite and infinite numbers of the 64-bit binary format, by sign and by the
63 low bits of their pattern. A number with a fraction is rounded to the nearest
such number, ties going to the even pattern. The low bits grow with the absolute
value, so a carry out of the significand moves into the exponent by itself.
-/

namespace SchemaDoc

def infiniteMagnitude : Nat := 0x7FF0000000000000

/-- A sign and the 63 low bits; there is no pattern here that is not a number. -/
structure Binary64 where
  negative : Bool
  magnitude : Nat
  magnitude_le : magnitude ≤ infiniteMagnitude
deriving DecidableEq, Repr

namespace Binary64

def signBit : Nat := 0x8000000000000000

/-- The unit of the exponent in a pattern, and the leading bit of the significand of a normal
number, which the pattern leaves out. -/
def hiddenBit : Nat := 0x10000000000000

def bits (x : Binary64) : Nat := (if x.negative then signBit else 0) + x.magnitude

def isInfinite (x : Binary64) : Bool := x.magnitude == infiniteMagnitude

def biasedExponent (magnitude : Nat) : Nat := Nat.max (magnitude / hiddenBit) 1

/-- The integer significand: finite low bits denote `significand * 2 ^ unitExponent`. -/
def significand (magnitude : Nat) : Nat :=
  if magnitude < hiddenBit then magnitude else magnitude % hiddenBit + hiddenBit

def unitExponent (magnitude : Nat) : Int := biasedExponent magnitude - 1075

/-- The nearest integer to `num / den`, an even one when two are equally near. -/
def roundDiv (num den : Nat) : Nat :=
  let quotient := num / den
  let rest := 2 * (num % den)
  if rest < den then quotient
  else if den < rest then quotient + 1
  else quotient + quotient % 2

def floorLog2 (num den : Nat) : Int :=
  let k : Int := (num.log2 : Int) - den.log2
  if num * Nat.pow 2 (-k).toNat < den * Nat.pow 2 k.toNat then k - 1 else k

def nearestMagnitude (num den : Nat) : Nat :=
  let last := floorLog2 num den - 52
  let unit : Int := if last < -1074 then -1074 else last
  let significand := roundDiv (num * Nat.pow 2 (-unit).toNat) (den * Nat.pow 2 unit.toNat)
  Nat.min ((unit + 1074).toNat * hiddenBit + significand) infiniteMagnitude

/-- The low bits for a positive coefficient times a power of ten. Exponents far outside of the
range of the format are decided by the number of digits alone. -/
def magnitudeOf (coefficient : Nat) (exponent : Int) : Nat :=
  let digits : Int := (Bytes.decimal coefficient).length
  if 310 < digits + exponent then infiniteMagnitude
  else if digits + exponent < -330 then 0
  else nearestMagnitude (coefficient * Nat.pow 10 exponent.toNat) (Nat.pow 10 (-exponent).toNat)

theorem magnitudeOf_le (coefficient : Nat) (exponent : Int) :
    magnitudeOf coefficient exponent ≤ infiniteMagnitude := by
  unfold magnitudeOf
  simp only
  split
  · exact Nat.le_refl _
  split
  · exact Nat.zero_le _
  · exact Nat.min_le_right _ _

/-- The nearest number to a decimal; zero has no sign, but a number that is rounded to zero
keeps its own. -/
def ofDecimal (d : Decimal) : Binary64 :=
  if d.coefficient = 0 then ⟨false, 0, Nat.zero_le _⟩
  else ⟨d.coefficient < 0, magnitudeOf d.coefficient.natAbs d.exponent, magnitudeOf_le _ _⟩

end Binary64

def Decimal.toBinary64 (d : Decimal) : Binary64 := .ofDecimal d

end SchemaDoc
