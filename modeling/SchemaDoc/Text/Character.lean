import SchemaDoc.Text.Bytes

/-! # Characters of a byte string

A character is the code point of one well-formed UTF-8 sequence, or the replacement
character for a single byte that begins none. Reading from the left and reading
from the right are separate operations; each takes at least one byte.
-/

namespace SchemaDoc

/-- One character of a byte string: its code point and the bytes it takes. -/
structure Character where
  code : Nat
  width : Nat
deriving DecidableEq, Repr

namespace Character

/-- What a byte that belongs to no well-formed sequence is read as. -/
def replacement : Nat := 0xFFFD

def isTail (b : UInt8) : Bool := 0x80 ≤ b && b < 0xC0

def tailBits (b : UInt8) : Nat := b.toNat - 0x80

/-- The code point that a byte sequence encodes as a whole. -/
def scalar? : Bytes → Option Nat
  | [a] => if a < 0x80 then some a.toNat else none
  | [a, b] =>
    if 0xC2 ≤ a && a < 0xE0 && isTail b then
      some ((a.toNat - 0xC0) * 0x40 + tailBits b)
    else none
  | [a, b, c] =>
    let code := (a.toNat - 0xE0) * 0x1000 + tailBits b * 0x40 + tailBits c
    if 0xE0 ≤ a && a < 0xF0 && isTail b && isTail c &&
        0x800 ≤ code && !(0xD800 ≤ code && code < 0xE000) then
      some code
    else none
  | [a, b, c, d] =>
    let code := (a.toNat - 0xF0) * 0x40000 + tailBits b * 0x1000 + tailBits c * 0x40 + tailBits d
    if 0xF0 ≤ a && a < 0xF5 && isTail b && isTail c && isTail d &&
        0x10000 ≤ code && code < 0x110000 then
      some code
    else none
  | _ => none

def widths : List Nat := [1, 2, 3, 4]

def first (s : Bytes) : Character :=
  (widths.findSome? fun k => (scalar? (s.take k)).map (⟨·, k⟩)).getD ⟨replacement, 1⟩

/-- The character at the right end of a nonempty text that is given reversed. -/
def firstOfReverse (s : Bytes) : Character :=
  (widths.findSome? fun k => (scalar? (s.take k).reverse).map (⟨·, k⟩)).getD ⟨replacement, 1⟩

/-- The characters from left to right, after leaving out `pending` bytes. -/
def listFrom : (pending : Nat) → Bytes → List Character
  | _, [] => []
  | pending + 1, _ :: s => listFrom pending s
  | 0, b :: s => first (b :: s) :: listFrom ((first (b :: s)).width - 1) s

def list (s : Bytes) : List Character := listFrom 0 s

theorem listFrom_eq_drop (pending : Nat) (s : Bytes) :
    listFrom pending s = listFrom 0 (s.drop pending) := by
  induction pending generalizing s with
  | zero => rfl
  | succ pending ih => cases s <;> simp [listFrom, ih]

/-- The UTF-8 sequence of a code point; surrogates and numbers out of range are replaced. -/
def encode (code : Nat) : Bytes :=
  let code := if 0x110000 ≤ code || (0xD800 ≤ code && code < 0xE000) then replacement else code
  if code < 0x80 then [code.toUInt8]
  else if code < 0x800 then
    [(0xC0 + code / 0x40).toUInt8, (0x80 + code % 0x40).toUInt8]
  else if code < 0x10000 then
    [(0xE0 + code / 0x1000).toUInt8, (0x80 + code / 0x40 % 0x40).toUInt8,
      (0x80 + code % 0x40).toUInt8]
  else
    [(0xF0 + code / 0x40000).toUInt8, (0x80 + code / 0x1000 % 0x40).toUInt8,
      (0x80 + code / 0x40 % 0x40).toUInt8, (0x80 + code % 0x40).toUInt8]

/-- Whether a character is one byte that belongs to no well-formed sequence. -/
def isInvalid (r : Character) : Bool := r.code == replacement && r.width == 1

end Character

namespace Bytes

def isValidUtf8 (s : Bytes) : Bool := (Character.list s).all fun r => !r.isInvalid

/-- A text put together from what `f` makes of each character and its own bytes. -/
def mapCharactersFrom (f : Character → Bytes → Bytes) : (pending : Nat) → Bytes → Bytes
  | _, [] => []
  | pending + 1, _ :: s => mapCharactersFrom f pending s
  | 0, b :: s =>
    let r := Character.first (b :: s)
    f r ((b :: s).take r.width) ++ mapCharactersFrom f (r.width - 1) s

def mapCharacters (f : Character → Bytes → Bytes) (s : Bytes) : Bytes := mapCharactersFrom f 0 s

/-- The text behind its first `n` characters. -/
def dropCharacters : Nat → Bytes → Bytes
  | 0, s => s
  | _ + 1, [] => []
  | n + 1, b :: s => dropCharacters n ((b :: s).drop (Character.first (b :: s)).width)

end Bytes

end SchemaDoc
