import SchemaDoc.Number.Shortest

/-! # Written numbers

A finite number is written with its shortest digits, positionally when the
exponent of its leading digit lies in the range of the style and with an
exponent otherwise.
-/

namespace SchemaDoc

/-- The exponents of a leading digit that are written positionally: from `least` up to, not
including, `limit`. Other exponents have at least `exponentDigits` digits. -/
structure NumberStyle where
  least : Int
  limit : Int
  exponentDigits : Nat
deriving DecidableEq, Repr

namespace NumberStyle

def zeros (n : Int) : Bytes := List.replicate n.toNat 0x30

def positional (d : Digits) : Bytes :=
  let whole := d.digits.take d.point.toNat
  let fraction := d.digits.drop d.point.toNat
  (if whole.isEmpty then bytes "0" else whole ++ zeros (d.point - whole.length)) ++
    (if fraction.isEmpty then [] else bytes "." ++ zeros (-d.point) ++ fraction)

def scientific (exponentDigits : Nat) (d : Digits) : Bytes :=
  let exponent := d.point - 1
  let written := Bytes.decimal exponent.natAbs
  d.digits.take 1 ++
    (if d.digits.length ≤ 1 then [] else bytes "." ++ d.digits.drop 1) ++
    (if exponent < 0 then bytes "e-" else bytes "e+") ++
    List.replicate (exponentDigits - written.length) 0x30 ++ written

/-- A finite number in a style. -/
def write (n : NumberStyle) (x : Binary64) : Bytes :=
  let d := Digits.shortest x
  let exponent := d.point - 1
  (if x.negative then bytes "-" else []) ++
    (if d.digits.isEmpty || (n.least ≤ exponent && exponent < n.limit) then positional d
      else scientific n.exponentDigits d)

end NumberStyle

end SchemaDoc
