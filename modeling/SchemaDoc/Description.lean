import SchemaDoc.Data.Basic
import SchemaDoc.Syntax.Basic
import SchemaDoc.Text.Space

/-! # Descriptions

A run of comments describes the element that directly follows it in the same
list. The indentation that all lines of a run have in common is removed. The
comments before an extension describe nothing, since a type is described where
it is defined, but the members of an extension are described like any others.
-/

namespace SchemaDoc

abbrev Descriptions := List (Bytes × Bytes)

namespace Description

/-- The number of white space characters at the start of a line. -/
def indentation (line : Bytes) : Nat :=
  ((Character.list line).takeWhile fun r => isSpace r.code).length

def least : Nat → List Nat → Nat
  | n, [] => n
  | n, m :: rest => least (min n m) rest

/-- Lines without the indentation that all of them have, one below the other. -/
def dedent : List Bytes → Bytes
  | [] => []
  | line :: lines =>
    let common := least (indentation line) (lines.map indentation)
    Bytes.join [0x0A] ((line :: lines).map (Bytes.dropCharacters common))

def typeKey (type : Bytes) : Bytes := type

def memberKey (type member : Bytes) : Bytes := type ++ bytes "." ++ member

def argumentKey (type field argument : Bytes) : Bytes :=
  memberKey type field ++ bytes "(" ++ argument ++ bytes ")"

variable {L : Type}

/-- The comment lines since the last member of a list. -/
structure Buffer where
  lines : List Bytes

namespace Buffer

def empty : Buffer := ⟨[]⟩

def push (b : Buffer) (c : Comment L) : Buffer := ⟨b.lines ++ [c.content]⟩

def take (b : Buffer) : Bytes × Buffer := (dedent b.lines, empty)

end Buffer

/-- The members of a list, each with the text that is taken from the buffer at it. -/
def describedFrom {α : Type} (b : Buffer) : List (Element L α) → List (Bytes × α)
  | [] => []
  | .comment c :: rest => describedFrom (b.push c) rest
  | .member a :: rest => (b.take.1, a) :: describedFrom b.take.2 rest

def described {α : Type} (elements : List (Element L α)) : List (Bytes × α) :=
  describedFrom .empty elements

/-- Keys and texts of input values; `key` makes a key of a name. -/
def ofInputs (key : Bytes → Bytes) (inputs : List (Element L (InputValue L))) : Descriptions :=
  (described inputs).map fun (text, i) => (key i.name.text, text)

def ofFields (type : Bytes) (fields : List (Element L (Field L))) : Descriptions :=
  (described fields).flatMap fun (text, f) =>
    (memberKey type f.name.text, text) ::
      ofInputs (argumentKey type f.name.text) (f.arguments.getD [])

def ofEnumMembers (type : Bytes) (members : List (Element L (EnumMember L))) : Descriptions :=
  (described members).map fun (text, m) => (memberKey type m.name.text, text)

/-- The describable elements of a definition, with the text of the comments before it. -/
def ofDefinition (text : Bytes) : Definition L → Descriptions
  | .object o => (typeKey o.name.text, text) :: ofFields o.name.text o.fields
  | .interface _ name fields => (typeKey name.text, text) :: ofFields name.text fields
  | .union _ name _ => [(typeKey name.text, text)]
  | .scalar _ name => [(typeKey name.text, text)]
  | .enum _ name members => (typeKey name.text, text) :: ofEnumMembers name.text members
  | .input _ name fields => (typeKey name.text, text) :: ofInputs (memberKey name.text) fields
  | .extension _ o => ofFields o.name.text o.fields

/-- All describable elements in document order; the text of most is empty. -/
def listing (d : Document L) : Descriptions :=
  (described d.definitions).flatMap fun (text, definition) => ofDefinition text definition

end Description

namespace Descriptions

def lookup? (ds : Descriptions) (key : Bytes) : Option Bytes :=
  (ds.find? fun d => d.1 == key).map Prod.snd

/-- A key described anew; an empty text leaves the key as it is. -/
def set (ds : Descriptions) (key text : Bytes) : Descriptions :=
  if text.isEmpty then ds
  else if ds.any fun d => d.1 == key then
    ds.map fun d => if d.1 == key then (key, text) else d
  else ds ++ [(key, text)]

/-- The descriptions of a document: for each key the last text that is not empty. -/
def ofDocument {L : Type} (d : Document L) : Descriptions :=
  (Description.listing d).foldl (fun ds entry => ds.set entry.1 entry.2) []

def sorted (ds : Descriptions) : Descriptions := Data.sortEntries Bytes.le ds

def toData (ds : Descriptions) : Data := .map (ds.map fun d => (d.1, .text d.2))

end Descriptions

end SchemaDoc
