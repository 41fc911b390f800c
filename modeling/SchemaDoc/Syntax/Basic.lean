import SchemaDoc.Number.Decimal
import SchemaDoc.Source

/-! # Syntax trees of schema documents

Every node carries an annotation of type `L`. Parsing yields trees over `Span`;
trees over `Unit` are trees without locations. Comments are kept: the lists in
which a document allows them hold elements that are comments or proper members.
-/

namespace SchemaDoc

variable {L M : Type}

/-- An identifier as it is written. -/
structure Name (L : Type) where
  loc : L
  text : Bytes

/-- A comment up to the end of its line, with its leading number sign. -/
structure Comment (L : Type) where
  loc : L
  text : Bytes

/-- A member of a list in which comments may stand. -/
inductive Element (L α : Type) where
  | comment (comment : Comment L)
  | member (member : α)

/-- A reference to a type by its name. -/
structure NamedType (L : Type) where
  loc : L
  name : Name L

inductive TypeRef (L : Type) where
  | named (type : NamedType L)
  | list (loc : L) (inner : TypeRef L)
  | nonNull (loc : L) (inner : TypeRef L)

/-- A number literal and the number it denotes. -/
structure Numeral where
  literal : Bytes
  exact : Decimal
deriving DecidableEq, Repr

mutual

inductive Value (L : Type) where
  | variable (loc : L) (name : Name L)
  | number (loc : L) (numeral : Numeral)
  | string (loc : L) (text : Bytes)
  | boolean (loc : L) (value : Bool)
  | enum (loc : L) (name : Name L)
  | list (loc : L) (elements : List (Element L (Value L)))
  | object (loc : L) (fields : List (Element L (ObjectField L)))

inductive ObjectField (L : Type) where
  | mk (loc : L) (name : Name L) (value : Value L)

end

/-- An argument of a field, or a field of an input object. -/
structure InputValue (L : Type) where
  loc : L
  name : Name L
  type : TypeRef L
  default : Option (Value L)

/-- A field; without a parenthesis it has no argument list, not an empty one. -/
structure Field (L : Type) where
  loc : L
  name : Name L
  arguments : Option (List (Element L (InputValue L)))
  type : TypeRef L

structure EnumMember (L : Type) where
  loc : L
  name : Name L

structure ObjectType (L : Type) where
  loc : L
  name : Name L
  interfaces : List (Element L (NamedType L))
  fields : List (Element L (Field L))

inductive Definition (L : Type) where
  | object (type : ObjectType L)
  | interface (loc : L) (name : Name L) (fields : List (Element L (Field L)))
  | union (loc : L) (name : Name L) (members : List (NamedType L))
  | scalar (loc : L) (name : Name L)
  | enum (loc : L) (name : Name L) (members : List (Element L (EnumMember L)))
  | input (loc : L) (name : Name L) (fields : List (Element L (InputValue L)))
  | extension (loc : L) (type : ObjectType L)

structure Document (L : Type) where
  loc : L
  definitions : List (Element L (Definition L))

/-- The text of a comment without its number sign. -/
def Comment.content (c : Comment L) : Bytes :=
  match c.text with
  | 0x23 :: content => content
  | text => text

namespace Element

def member? {α : Type} : Element L α → Option α
  | .comment _ => none
  | .member a => some a

/-- The proper members of a list, in order. -/
def members {α : Type} (elements : List (Element L α)) : List α := elements.filterMap member?

end Element

namespace TypeRef

def loc : TypeRef L → L
  | .named type => type.loc
  | .list loc _ => loc
  | .nonNull loc _ => loc

end TypeRef

namespace Value

def loc : Value L → L
  | .variable loc _ => loc
  | .number loc _ => loc
  | .string loc _ => loc
  | .boolean loc _ => loc
  | .enum loc _ => loc
  | .list loc _ => loc
  | .object loc _ => loc

end Value

def ObjectField.loc : ObjectField L → L
  | .mk loc _ _ => loc

namespace Definition

def loc : Definition L → L
  | .object type => type.loc
  | .interface loc _ _ => loc
  | .union loc _ _ => loc
  | .scalar loc _ => loc
  | .enum loc _ _ => loc
  | .input loc _ _ => loc
  | .extension loc _ => loc

end Definition

end SchemaDoc
