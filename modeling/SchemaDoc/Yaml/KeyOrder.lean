import SchemaDoc.Text.Bytes

/-! # The natural order of keys

Keys are compared up to their first difference. Letters there compare by code,
a letter comes behind any other character unless digits run up to it, and runs
of digits compare as numbers. Keys are made of names and ASCII punctuation, so
bytes are characters. Numbers are 64-bit words, so that longer runs wrap around.
-/

namespace SchemaDoc.Yaml

def runValue (n : Int) (s : Bytes) : Int :=
  (s.takeWhile Bytes.isDigit).foldl
    (fun n b => (n * 10 + (b.toNat - 0x30 : Nat)).bmod 0x10000000000000000) n

/-- Whether the digits that end the common start, given reversed, hold one that is not zero. -/
def hasNonzeroDigit (common : Bytes) : Bool := (common.takeWhile Bytes.isDigit).any (· != 0x30)

/-- The order at the first difference, `a` before `x` and `b` before `y`, behind a common start
that is given reversed. -/
def differenceLt (common : Bytes) (a : UInt8) (x : Bytes) (b : UInt8) (y : Bytes) : Bool :=
  let afterDigit := match common with
    | [] => false
    | c :: _ => Bytes.isDigit c
  match Bytes.isLetter a, Bytes.isLetter b with
  | true, true => a < b
  | true, false => afterDigit
  | false, true => !afterDigit
  | false, false =>
    let start : Int := if (a == 0x30 || b == 0x30) && hasNonzeroDigit common then 1 else 0
    let m := runValue start (a :: x)
    let n := runValue start (b :: y)
    let i := ((a :: x).takeWhile Bytes.isDigit).length
    let j := ((b :: y).takeWhile Bytes.isDigit).length
    if m ≠ n then m < n else if i ≠ j then i < j else a < b

def keyLtFrom (common : Bytes) : Bytes → Bytes → Bool
  | [], [] => false
  | [], _ :: _ => true
  | _ :: _, [] => false
  | a :: x, b :: y =>
    if a = b then keyLtFrom (a :: common) x y else differenceLt common a x b y

def keyLe (x y : Bytes) : Bool := !keyLtFrom [] y x

end SchemaDoc.Yaml
