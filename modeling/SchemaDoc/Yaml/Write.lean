import SchemaDoc.Data.Basic
import SchemaDoc.Number.Style
import SchemaDoc.Yaml.KeyOrder
import SchemaDoc.Yaml.Scalar

/-! # YAML text

Data in block style with keys in natural order. A map that is an item of a list
starts on the line of its dash; everything else that is nested starts on a line
of its own at the next multiple of four columns.
-/

namespace SchemaDoc.Yaml

/-- Numbers are positional from a ten thousandth up to, not including, a million. -/
def numberStyle : NumberStyle := ⟨-4, 6, 2⟩

def number (x : Binary64) : Bytes :=
  if x.isInfinite then if x.negative then bytes "-.inf" else bytes ".inf"
  else numberStyle.write x

def nestedColumn (column : Nat) : Nat := 4 * ((column + 4) / 4)

def line (s : Scalar) : Bytes := if s.endsLine then s.text else s.text ++ [0x0A]

/-- Parts that each start at a column and end their last line; the first stands there already. -/
def stack (column : Nat) (parts : List Bytes) : Bytes := Bytes.join (Bytes.spaces column) parts

/-- A key longer than this is written on a line of its own. -/
def longestSimpleKey : Nat := 128

def entry (column : Nat) (key value : Bytes) : Bytes :=
  let written := (Scalar.ofText (nestedColumn column) key).text
  if key.length ≤ longestSimpleKey then written ++ bytes ":" ++ value
  else bytes "? " ++ written ++ 0x0A :: Bytes.spaces column ++ bytes ":" ++ value

def isNested : Data → Bool
  | .list items => !items.isEmpty
  | .map entries => !entries.isEmpty
  | _ => false

def behindKey (column : Nat) (value : Data) (text : Bytes) : Bytes :=
  if isNested value then 0x0A :: Bytes.spaces column ++ text else 0x20 :: text

mutual

/-- The text of data whose first line starts at a column, up to the end of its last line. -/
def write (column : Nat) : Data → Bytes
  | .null => bytes "null\n"
  | .boolean b => (if b then bytes "true" else bytes "false") ++ [0x0A]
  | .integer n => Bytes.signed n ++ [0x0A]
  | .number x => number x ++ [0x0A]
  | .text s => line (Scalar.ofText column s)
  | .list [] => bytes "[]\n"
  | .list (item :: items) => stack column (writeItems column (item :: items))
  | .map [] => bytes "\x7b\x7d\n"
  | .map (e :: entries) =>
    stack column <|
      (Data.sortEntries keyLe (writeEntries column (e :: entries))).map fun part =>
        entry column part.1 part.2

def writeItems (column : Nat) : List Data → List Bytes
  | [] => []
  | item :: items => (bytes "- " ++ write (column + 2) item) :: writeItems column items

def writeEntries (column : Nat) : List (Bytes × Data) → List (Bytes × Bytes)
  | [] => []
  | (key, value) :: entries =>
    (key, behindKey (nestedColumn column) value (write (nestedColumn column) value)) ::
      writeEntries column entries

end

def writeDocument (d : Data) : Bytes := write 0 d

end SchemaDoc.Yaml
