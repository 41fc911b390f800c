import SchemaDoc.Number.Binary64

/-! # Shortest digits

The fewest decimal digits that are rounded back to a given binary number and,
among equally few, the ones nearest to it; of two equally near, the even ones.
All comparisons are made in exact integer arithmetic.
-/

namespace SchemaDoc

/-- The number `0.d₁d₂… * 10 ^ point` for the digits `d₁d₂…`, which neither start nor end with a
zero; zero has no digits. -/
structure Digits where
  digits : Bytes
  point : Int
deriving DecidableEq, Repr

namespace Digits

structure Ratio where
  numerator : Nat
  denominator : Nat

def Ratio.scaled (n : Nat) (base : Nat) (exponent : Int) : Ratio :=
  ⟨n * Nat.pow base exponent.toNat, Nat.pow base (-exponent).toNat⟩

def Ratio.lt (a b : Ratio) : Bool :=
  a.numerator * b.denominator < b.numerator * a.denominator

def Ratio.le (a b : Ratio) : Bool := !b.lt a

def Ratio.distance (a b : Ratio) : Nat :=
  let x := a.numerator * b.denominator
  let y := b.numerator * a.denominator
  (x - y) + (y - x)

/-- The decimals that are rounded to a finite number, with the number itself. -/
structure Interval where
  low : Ratio
  value : Ratio
  high : Ratio
  closed : Bool

def Interval.contains (i : Interval) (r : Ratio) : Bool :=
  if i.closed then i.low.le r && r.le i.high else i.low.lt r && r.lt i.high

/-- The interval of finite positive low bits. Its ends are halfway to the neighbours, and the lower
neighbour of a power of two is nearer. -/
def interval (magnitude : Nat) : Interval :=
  let m := Binary64.significand magnitude
  let unit := Binary64.unitExponent magnitude - 2
  let isPower := magnitude % Binary64.hiddenBit = 0 && Binary64.hiddenBit < magnitude
  let below := if isPower then 1 else 2
  ⟨.scaled (4 * m - below) 2 unit, .scaled (4 * m) 2 unit, .scaled (4 * m + 2) 2 unit, m % 2 = 0⟩

def leadingExponent (r : Ratio) : Int :=
  ((Bytes.decimal (r.numerator * Nat.pow 10 400 / r.denominator)).length : Int) - 401

/-- The better of the two multiples of a power of ten next to the value, if one is in the
interval. -/
def onGrid (i : Interval) (exponent : Int) : Option Nat :=
  let unit : Ratio := .scaled 1 10 exponent
  let down := i.value.numerator * unit.denominator / (i.value.denominator * unit.numerator)
  let candidate (n : Nat) : Ratio := .scaled n 10 exponent
  let up := down + 1
  match i.contains (candidate down), i.contains (candidate up) with
  | false, false => none
  | true, false => some down
  | false, true => some up
  | true, true =>
    let a := i.value.distance (candidate down)
    let b := i.value.distance (candidate up)
    some (if a < b then down else if b < a then up else if down % 2 = 0 then down else up)

def dropZeros (s : Bytes) : Bytes := (s.reverse.dropWhile (· == 0x30)).reverse

def search (i : Interval) (leading : Int) : (fuel : Nat) → (count : Nat) → Digits
  | 0, _ => ⟨[], 0⟩
  | fuel + 1, count =>
    let exponent := leading - count + 1
    match onGrid i exponent with
    | some n =>
      let digits := Bytes.decimal n
      ⟨dropZeros digits, exponent + digits.length⟩
    | none => search i leading fuel (count + 1)

/-- The shortest digits of a finite number; seventeen are always enough. -/
def shortest (x : Binary64) : Digits :=
  if x.magnitude = 0 then ⟨[], 0⟩
  else
    let i := interval x.magnitude
    search i (leadingExponent i.value) 17 1

end Digits

end SchemaDoc
