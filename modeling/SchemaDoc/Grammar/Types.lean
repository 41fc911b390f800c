import SchemaDoc.Grammar.Rule

/-! # Names and type references -/

namespace SchemaDoc.Grammar

/-- Any identifier: inside a member list no keyword competes with it. -/
def memberName : Rule (Name Span) := positioned fun c =>
  match c.lexeme? .name with
  | some (text, next) => .matched (fun loc => ⟨loc, text⟩) next
  | none => .noMatch c

/-- An identifier that is not a reserved word. -/
def name : Rule (Name Span) := positioned fun c =>
  match c.lexeme? .name with
  | some (text, next) =>
    if isReserved text then .noMatch c else .matched (fun loc => ⟨loc, text⟩) next
  | none => .noMatch c

def namedType : Rule (NamedType Span) := positioned fun c =>
  (name c).map fun n loc => ⟨loc, n⟩

def listTypeOf (inner : Rule (TypeRef Span)) : Rule (TypeRef Span) := positioned fun c =>
  match c.literal? (bytes "[") with
  | none => .noMatch c
  | some next =>
    ((inner next).require .innerType).andThen fun t next =>
      (expect (bytes "]") next).map fun _ loc => .list loc t

/-- A type reference nested less than `fuel` deep. -/
def typeReferenceWithin : (fuel : Nat) → Rule (TypeRef Span)
  | 0 => fun c => .noMatch c
  | fuel + 1 => positioned fun c =>
    (((namedType c).map TypeRef.named).orElse fun _ =>
      listTypeOf (typeReferenceWithin fuel) c).andThen fun t next =>
        match next.literal? (bytes "!") with
        | some next => .matched (fun loc => .nonNull loc t) next
        | none => .matched (fun _ => t) next

/-- A named or list type with an optional exclamation mark. Each level of nesting takes a bracket,
so the length of the text ahead is fuel enough. -/
def typeReference : Rule (TypeRef Span) := fun c => typeReferenceWithin (c.rest.length + 1) c

def listType : Rule (TypeRef Span) := listTypeOf typeReference

end SchemaDoc.Grammar
