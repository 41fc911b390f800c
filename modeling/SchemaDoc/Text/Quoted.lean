import SchemaDoc.Text.Character
import SchemaDoc.Text.Printable

/-! # Quoted text for messages

A quoted text stands between quotation marks. The mark and the backslash get a
backslash, printable characters stay, and everything else is written as an
escape of ASCII characters, so a message never holds a control character of the
text it quotes.
-/

namespace SchemaDoc.Quoted

private def letter? : Nat → Option UInt8
  | 0x07 => some 0x61
  | 0x08 => some 0x62
  | 0x09 => some 0x74
  | 0x0A => some 0x6E
  | 0x0B => some 0x76
  | 0x0C => some 0x66
  | 0x0D => some 0x72
  | _ => none

/-- One character between two marks `mark`. -/
def character (mark : UInt8) (code : Nat) : Bytes :=
  if code = mark.toNat || code = 0x5C then [0x5C, code.toUInt8]
  else if isPrintable code then Character.encode code
  else match letter? code with
    | some letter => [0x5C, letter]
    | none =>
      if code < 0x20 || code = 0x7F then bytes "\\x" ++ Bytes.hexLower 2 code
      else if code < 0x10000 then bytes "\\u" ++ Bytes.hexLower 4 code
      else bytes "\\U" ++ Bytes.hexLower 8 code

/-- A text in double quotes; a byte that belongs to no character is written in hexadecimal. -/
def text (s : Bytes) : Bytes :=
  bytes "\"" ++
    s.mapCharacters (fun r own =>
      if r.isInvalid then bytes "\\x" ++ own.flatMap (Bytes.hexLower 2 ·.toNat)
      else character 0x22 r.code) ++
    bytes "\""

def single (code : Nat) : Bytes := bytes "'" ++ character 0x27 code ++ bytes "'"

end SchemaDoc.Quoted
