import SchemaDoc.Text.Bytes

/-! # Host addresses

A numeric host has eight groups of up to four hexadecimal digits with colons
between them. One run of groups that are all zero may be left out, which leaves
a pair of colons, and the last two groups may be written as four decimal numbers
with points between them.
-/

namespace SchemaDoc.Uri.Address

/-- A decimal number below 256 that does not start with a needless zero. -/
def isOctet (s : Bytes) : Bool :=
  s.all Bytes.isDigit && !s.isEmpty && (s.length == 1 || s.head? != some 0x30) &&
    Bytes.digitsValue s < 256

def isDotted (s : Bytes) : Bool :=
  let octets := Bytes.split 0x2E s
  octets.length == 4 && octets.all isOctet

def isGroup (s : Bytes) : Bool :=
  !s.isEmpty && s.length ≤ 4 && s.all fun b => (Bytes.hexValue? b).isSome

/-- How many groups a list of pieces stands for. Only the end of an address may be dotted, and it
stands for two. -/
def groupCount? (atEnd : Bool) : List Bytes → Option Nat
  | [] => some 0
  | [piece] =>
    if isGroup piece then some 1 else if atEnd && isDotted piece then some 2 else none
  | piece :: pieces => if isGroup piece then (groupCount? atEnd pieces).map (· + 1) else none

def pieces (s : Bytes) : List Bytes := if s.isEmpty then [] else Bytes.split 0x3A s

def cutPair? : Bytes → Option (Bytes × Bytes)
  | [] => none
  | 0x3A :: 0x3A :: s => some ([], s)
  | b :: s => (cutPair? s).map fun (before, behind) => (b :: before, behind)

/-- Whether a text is an address. A pair of colons stands for at least one group. -/
def isAddress (s : Bytes) : Bool :=
  match cutPair? s with
  | none => groupCount? true (pieces s) == some 8
  | some (before, behind) =>
    match groupCount? false (pieces before), groupCount? true (pieces behind) with
    | some m, some n => m + n < 8
    | _, _ => false

end SchemaDoc.Uri.Address
