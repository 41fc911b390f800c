import SchemaDoc.Grammar.Values

/-! # Definitions and documents

A definition starts with its keyword. Once the keyword has matched, whatever is
missing behind it is a failure, so no other definition is tried.
-/

namespace SchemaDoc.Grammar

/-- The rule behind a keyword. -/
def afterKeyword {α : Type} (word : Bytes) (rule : Rule α) : Rule α := fun c =>
  match c.keyword? word with
  | none => .noMatch c
  | some next => rule next

/-- A list of members between two tokens. -/
def enclosed {α : Type} (opening closing : Bytes) (item : Rule α) :
    Rule (List (Element Span α)) := fun c =>
  (expect opening c).andThen fun _ next =>
    (many item next).andThen fun elements next =>
      (expect closing next).map fun _ => elements

def block {α : Type} (item : Rule α) : Rule (List (Element Span α)) :=
  enclosed (bytes "\x7b") (bytes "\x7d") item

def definitionName : Rule (Name Span) := fun c => (name c).require .definitionName

/-- A colon and the type that must stand behind it. -/
def memberType : Rule (TypeRef Span) := fun c =>
  (expect (bytes ":") c).andThen fun _ next => (typeReference next).require .memberType

/-- A rule that may be left out. -/
def optional {α : Type} (rule : Rule α) : Rule (Option α) := fun c =>
  match rule c with
  | .matched a next => .matched (some a) next
  | .noMatch back => .matched none back
  | .failed e => .failed e

/-- A type and an optional default value behind the name of an input value. -/
def inputValueRest (n : Name Span) : Rule (Span → InputValue Span) := fun c =>
  (memberType c).andThen fun t next =>
    (optional defaultValue next).map fun d loc => ⟨loc, n, t, d⟩

def inputValueDefinition : Rule (InputValue Span) := positioned fun c =>
  (memberName c).andThen inputValueRest

/-- An input value of an input object, where an argument list is a failure of its own. -/
def inputFieldDefinition : Rule (InputValue Span) := positioned fun c =>
  (memberName c).andThen fun n next =>
    match next.literal? (bytes "(") with
    | some _ => next.fail (.inputFieldArguments n.text)
    | none => inputValueRest n next

/-- The arguments of a field; without a parenthesis there is no match. -/
def argumentsDefinition : Rule (List (Element Span (InputValue Span))) := fun c =>
  match c.literal? (bytes "(") with
  | none => .noMatch c
  | some _ => enclosed (bytes "(") (bytes ")") inputValueDefinition c

def fieldDefinition : Rule (Field Span) := positioned fun c =>
  (memberName c).andThen fun n next =>
    (optional argumentsDefinition next).andThen fun arguments next =>
      (memberType next).map fun t loc => ⟨loc, n, arguments, t⟩

/-- The interfaces behind `implements`; without the word there is no match. -/
def implementsInterfaces : Rule (List (Element Span (NamedType Span))) :=
  afterKeyword (bytes "implements") fun c =>
    (many namedType c).andThen fun elements next => .matched elements next.skipTrivia

def objectTypeDefinition : Rule (ObjectType Span) := positioned <|
  afterKeyword (bytes "type") fun c =>
    ((name c).require .objectName).andThen fun n next =>
      (optional implementsInterfaces next).andThen fun interfaces next =>
        (block fieldDefinition next).map fun fields loc =>
          ⟨loc, n, interfaces.getD [], fields⟩

def interfaceTypeDefinition : Rule (Definition Span) := positioned <|
  afterKeyword (bytes "interface") fun c =>
    (definitionName c).andThen fun n next =>
      (block fieldDefinition next).map fun fields loc => .interface loc n fields

def unionMember : Rule (NamedType Span) := fun c =>
  (namedType c).require .unionMember

/-- The further members of a union, each behind a bar; `fuel` bounds their number. -/
def unionMembersWithin : (fuel : Nat) → Rule (List (NamedType Span))
  | 0, c => .matched [] c
  | fuel + 1, c =>
    match c.literal? (bytes "|") with
    | none => .matched [] c
    | some next =>
      (unionMember next).andThen fun t next =>
        (unionMembersWithin fuel next).map (t :: ·)

def unionTypeDefinition : Rule (Definition Span) := positioned <|
  afterKeyword (bytes "union") fun c =>
    (definitionName c).andThen fun n next =>
      (expect (bytes "=") next).andThen fun _ next =>
        (unionMember next).andThen fun t next =>
          (unionMembersWithin (next.rest.length + 1) next).map fun ts loc =>
            .union loc n (t :: ts)

def scalarTypeDefinition : Rule (Definition Span) := positioned <|
  afterKeyword (bytes "scalar") fun c => (definitionName c).map fun n loc => .scalar loc n

def enumValueDefinition : Rule (EnumMember Span) := positioned fun c =>
  (name c).map fun n loc => ⟨loc, n⟩

def enumTypeDefinition : Rule (Definition Span) := positioned <|
  afterKeyword (bytes "enum") fun c =>
    (definitionName c).andThen fun n next =>
      (block enumValueDefinition next).map fun members loc => .enum loc n members

def inputObjectTypeDefinition : Rule (Definition Span) := positioned <|
  afterKeyword (bytes "input") fun c =>
    (definitionName c).andThen fun n next =>
      (block inputFieldDefinition next).map fun fields loc => .input loc n fields

def typeExtensionDefinition : Rule (Definition Span) := positioned <|
  afterKeyword (bytes "extend") fun c =>
    ((objectTypeDefinition c).require .objectDefinition).map fun o loc => .extension loc o

def definition : Rule (Definition Span) := fun c =>
  ((objectTypeDefinition c).map Definition.object).orElse fun _ =>
  (interfaceTypeDefinition c).orElse fun _ =>
  (unionTypeDefinition c).orElse fun _ =>
  (scalarTypeDefinition c).orElse fun _ =>
  (enumTypeDefinition c).orElse fun _ =>
  (inputObjectTypeDefinition c).orElse fun _ =>
  typeExtensionDefinition c

/-- Comments and definitions up to the end of the text. -/
def document : Rule (Document Span) := positioned fun c =>
  (many definition c).andThen fun definitions next =>
    if next.skipTrivia.isEnd then .matched (fun loc => ⟨loc, definitions⟩) next
    else next.fail (.unexpectedCharacter next.found)

end SchemaDoc.Grammar

namespace SchemaDoc

/-- The document of a text, or the first error in it. -/
def Document.parse (body : Bytes) : Except Grammar.SyntaxError (Document Span) :=
  match Grammar.document (.ofBody body) with
  | .matched d _ => .ok d
  | .noMatch _ => .error ⟨0, .unexpectedCharacter .endOfText⟩
  | .failed e => .error e

end SchemaDoc
