import SchemaDoc.Syntax.Basic

/-! # Summaries

How many members a document declares. Input fields count as fields; the
interfaces and fields of an extension count like those of a type.
-/

namespace SchemaDoc

variable {L : Type}

/-- The arguments of a field, none without an argument list. -/
def Field.inputs (f : Field L) : List (InputValue L) := Element.members (f.arguments.getD [])

structure Summary where
  definitions : Nat
  fields : Nat
  arguments : Nat
  interfaces : Nat
deriving DecidableEq, Repr

namespace Summary

def add (a b : Summary) : Summary :=
  ⟨a.definitions + b.definitions, a.fields + b.fields, a.arguments + b.arguments,
    a.interfaces + b.interfaces⟩

def ofFields (fields : List (Element L (Field L))) (interfaces : Nat) : Summary :=
  ⟨1, (Element.members fields).length,
    ((Element.members fields).flatMap Field.inputs).length, interfaces⟩

def ofObject (o : ObjectType L) : Summary := ofFields o.fields (Element.members o.interfaces).length

def ofDefinition : Definition L → Summary
  | .object o => ofObject o
  | .extension _ o => ofObject o
  | .interface _ _ fields => ofFields fields 0
  | .input _ _ fields => ⟨1, (Element.members fields).length, 0, 0⟩
  | .union _ _ _ => ⟨1, 0, 0, 0⟩
  | .scalar _ _ => ⟨1, 0, 0, 0⟩
  | .enum _ _ _ => ⟨1, 0, 0, 0⟩

def ofDocument (d : Document L) : Summary :=
  (Element.members d.definitions).foldl (fun s definition => s.add (ofDefinition definition))
    ⟨0, 0, 0, 0⟩

end Summary

end SchemaDoc
