import SchemaDoc.Proofs.Json.Number
import SchemaDoc.Proofs.Text.Encoding

/-! # JSON texts

The values of JSON and the texts that denote them. A text is related to its value
production by production; lists and objects are listings of parts, and a part of
an object is a name with a value. An escaped surrogate denotes a character only
together with its other half, so a string always denotes a valid text.
-/

namespace SchemaDoc.Json

open Character (encode IsScalar)
open Grammar (IsNumber)

inductive Value where
  | null
  | boolean (value : Bool)
  | number (value : Number)
  | string (text : Bytes)
  | array (items : List Value)
  | object (members : List (Bytes × Value))

def isSpace (b : UInt8) : Bool := b == 0x20 || b == 0x09 || b == 0x0A || b == 0x0D

def IsSpace (s : Bytes) : Prop := ∀ b ∈ s, isSpace b = true

/-- What a letter behind a backslash stands for. -/
def shortEscape? : UInt8 → Option UInt8
  | 0x22 => some 0x22
  | 0x5C => some 0x5C
  | 0x2F => some 0x2F
  | 0x62 => some 0x08
  | 0x66 => some 0x0C
  | 0x6E => some 0x0A
  | 0x72 => some 0x0D
  | 0x74 => some 0x09
  | _ => none

def codeUnit? : Bytes → Option Nat
  | [a, b, c, d] =>
    match Bytes.hexValue? a, Bytes.hexValue? b, Bytes.hexValue? c, Bytes.hexValue? d with
    | some a, some b, some c, some d => some (((a * 16 + b) * 16 + c) * 16 + d)
    | _, _, _, _ => none
  | _ => none

/-- One character as it stands in a string, and its code point. -/
inductive IsCharacter : Bytes → Nat → Prop where
  | plain {code : Nat} : IsScalar code → 0x20 ≤ code → code ≠ 0x22 → code ≠ 0x5C →
      IsCharacter (encode code) code
  | short {letter code : UInt8} : shortEscape? letter = some code →
      IsCharacter [0x5C, letter] code.toNat
  | unit {digits : Bytes} {code : Nat} : codeUnit? digits = some code → IsScalar code →
      IsCharacter (0x5C :: 0x75 :: digits) code
  | pair {high low : Bytes} {h l : Nat} : codeUnit? high = some (0xD800 + h) → h < 0x400 →
      codeUnit? low = some (0xDC00 + l) → l < 0x400 →
      IsCharacter (0x5C :: 0x75 :: (high ++ 0x5C :: 0x75 :: low)) (0x10000 + h * 0x400 + l)

inductive IsCharacters : Bytes → Bytes → Prop where
  | nil : IsCharacters [] []
  | cons {u s t : Bytes} {code : Nat} : IsCharacter u code → IsCharacters s t →
      IsCharacters (u ++ s) (encode code ++ t)

inductive IsString : Bytes → Bytes → Prop where
  | quoted {s t : Bytes} : IsCharacters s t → IsString (0x22 :: (s ++ [0x22])) t

/-- At least one part, with commas between the parts and white space around them. -/
inductive IsListing {α : Type} (p : Bytes → α → Prop) : Bytes → List α → Prop where
  | last {g s h : Bytes} {a : α} : IsSpace g → p s a → IsSpace h →
      IsListing p (g ++ (s ++ h)) [a]
  | cons {g s h t : Bytes} {a : α} {as : List α} : IsSpace g → p s a → IsSpace h →
      IsListing p t as → IsListing p (g ++ (s ++ (h ++ 0x2C :: t))) (a :: as)

inductive IsMember {α : Type} (p : Bytes → α → Prop) : Bytes → Bytes × α → Prop where
  | named {n g h s name : Bytes} {a : α} : IsString n name → IsSpace g → IsSpace h → p s a →
      IsMember p (n ++ (g ++ 0x3A :: (h ++ s))) (name, a)

inductive IsValue : Bytes → Value → Prop where
  | null : IsValue (bytes "null") .null
  | true : IsValue (bytes "true") (.boolean true)
  | false : IsValue (bytes "false") (.boolean false)
  | number {s : Bytes} : IsNumber s → IsValue s (.number (.ofLiteral s))
  | string {s t : Bytes} : IsString s t → IsValue s (.string t)
  | emptyArray {g : Bytes} : IsSpace g → IsValue (0x5B :: (g ++ [0x5D])) (.array [])
  | array {s : Bytes} {items : List Value} : IsListing IsValue s items →
      IsValue (0x5B :: (s ++ [0x5D])) (.array items)
  | emptyObject {g : Bytes} : IsSpace g → IsValue (0x7B :: (g ++ [0x7D])) (.object [])
  | object {s : Bytes} {members : List (Bytes × Value)} : IsListing (IsMember IsValue) s members →
      IsValue (0x7B :: (s ++ [0x7D])) (.object members)

/-- A whole text: one value with white space around it. -/
inductive IsText : Bytes → Value → Prop where
  | around {g s h : Bytes} {v : Value} : IsSpace g → IsValue s v → IsSpace h →
      IsText (g ++ (s ++ h)) v

end SchemaDoc.Json
