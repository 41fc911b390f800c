import SchemaDoc.Number.Binary64

/-! # Generic data

What trees and descriptions become before they are written in an output format.
The entries of a map have no order of their own: each format sorts them by key.
-/

namespace SchemaDoc

inductive Data where
  | null
  | boolean (value : Bool)
  | integer (value : Int)
  | number (value : Binary64)
  | text (value : Bytes)
  | list (items : List Data)
  | map (entries : List (Bytes × Data))
deriving Inhabited

namespace Data

def nat (n : Nat) : Data := .integer n

variable {α : Type}

/-- Puts an entry between sorted ones, of which the last comes first: behind those that are not
greater. -/
def insertEntry (le : Bytes → Bytes → Bool) (e : Bytes × α) :
    List (Bytes × α) → List (Bytes × α)
  | [] => [e]
  | last :: before =>
    if le last.1 e.1 then e :: last :: before else last :: insertEntry le e before

/-- Entries sorted by their keys, by inserting one after the other, as up to twelve of them are. Of
more entries the same order comes in another way, unless their keys go round in a circle. -/
def sortEntries (le : Bytes → Bytes → Bool) (entries : List (Bytes × α)) : List (Bytes × α) :=
  (entries.foldl (fun sorted e => insertEntry le e sorted) []).reverse

end Data

end SchemaDoc
