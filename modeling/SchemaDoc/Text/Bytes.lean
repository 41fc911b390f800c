/-! # Byte strings

Source text, names, paths and messages are finite sequences of bytes. Nothing
here assumes that they are valid UTF-8; `Text.Character` reads characters from them.
-/

namespace SchemaDoc

/-- Text of any origin, as its bytes. -/
abbrev Bytes := List UInt8

/-- The UTF-8 bytes of a literal. -/
def bytes (s : String) : Bytes := s.toUTF8.data.toList

namespace Bytes

def strip? : Bytes → Bytes → Option Bytes
  | [], s => some s
  | _ :: _, [] => none
  | a :: start, b :: s => if a = b then strip? start s else none

theorem strip?_eq_some_iff {start s rest : Bytes} :
    strip? start s = some rest ↔ s = start ++ rest := by
  induction start generalizing s with
  | nil => simp [strip?]
  | cons a start ih =>
    cases s with
    | nil => simp [strip?]
    | cons b s =>
      by_cases h : a = b
      · simp [strip?, h, ih]
      · simp [strip?, h, Ne.symm h]

def startsWith (start s : Bytes) : Bool := (strip? start s).isSome

theorem startsWith_iff {start s : Bytes} : startsWith start s = true ↔ ∃ rest, s = start ++ rest := by
  rw [startsWith, Option.isSome_iff_exists]
  exact exists_congr fun _ => strip?_eq_some_iff

/-- The part before the first `sep` and the part behind it, if there is a `sep`. -/
def cut (sep : UInt8) (s : Bytes) : Bytes × Option Bytes :=
  match s.dropWhile (· != sep) with
  | [] => (s, none)
  | _ :: rest => (s.takeWhile (· != sep), some rest)

/-- The pieces of `s` between its occurrences of `sep`; never empty. -/
def split (sep : UInt8) : Bytes → List Bytes
  | [] => [[]]
  | b :: s =>
    if b = sep then [] :: split sep s
    else match split sep s with
      | [] => [[b]]
      | piece :: pieces => (b :: piece) :: pieces

def join (sep : Bytes) (pieces : List Bytes) : Bytes := (pieces.intersperse sep).flatten

/-- Lexicographic order of unsigned bytes, a proper prefix first. -/
def le (a b : Bytes) : Bool := (compare a b).isLE

def isDigit (b : UInt8) : Bool := 0x30 ≤ b && b ≤ 0x39

def isUpper (b : UInt8) : Bool := 0x41 ≤ b && b ≤ 0x5A

def isLower (b : UInt8) : Bool := 0x61 ≤ b && b ≤ 0x7A

def isLetter (b : UInt8) : Bool := isUpper b || isLower b

/-- ASCII letters in lower case, all other bytes unchanged. -/
def lower (s : Bytes) : Bytes := s.map fun b => if isUpper b then b + 0x20 else b

def decimal (n : Nat) : Bytes := (Nat.toDigits 10 n).map fun c => c.toNat.toUInt8

/-- An integer in decimal, with a minus sign when negative. -/
def signed : Int → Bytes
  | .ofNat n => decimal n
  | .negSucc n => bytes "-" ++ decimal (n + 1)

def hexDigit (letter : UInt8) (n : Nat) : UInt8 :=
  if n < 10 then 0x30 + n.toUInt8 else letter + (n - 10).toUInt8

/-- The `width` last hexadecimal digits of `n`, with `letter` as the digit ten. -/
def hexadecimal (letter : UInt8) : Nat → Nat → Bytes
  | 0, _ => []
  | width + 1, n => hexadecimal letter width (n / 16) ++ [hexDigit letter (n % 16)]

def hexLower (width n : Nat) : Bytes := hexadecimal 0x61 width n

def hexUpper (width n : Nat) : Bytes := hexadecimal 0x41 width n

def hexValue? (b : UInt8) : Option Nat :=
  if isDigit b then some (b.toNat - 0x30)
  else if 0x61 ≤ b && b ≤ 0x66 then some (b.toNat - 0x57)
  else if 0x41 ≤ b && b ≤ 0x46 then some (b.toNat - 0x37)
  else none

def digitsValue (s : Bytes) : Nat := s.foldl (fun n b => n * 10 + (b.toNat - 0x30)) 0

def spaces (n : Nat) : Bytes := List.replicate n 0x20

end Bytes

end SchemaDoc
