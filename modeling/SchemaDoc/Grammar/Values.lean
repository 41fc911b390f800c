import SchemaDoc.Grammar.Types

/-! # Values

Values are constant or not; only the others may hold variables. A default value
is always constant.
-/

namespace SchemaDoc.Grammar

def variableValue : Rule (Value Span) := positioned fun c =>
  match c.literal? (bytes "$") with
  | none => .noMatch c
  | some next => ((name next).require .definitionName).map fun n loc => .variable loc n

def numberValue : Rule (Value Span) := positioned fun c =>
  match c.lexeme? .number with
  | none => .noMatch c
  | some (literal, next) =>
    match Decimal.ofLiteral? literal with
    | none => c.fail (.invalidNumber literal)
    | some exact => .matched (fun loc => .number loc ⟨literal, exact⟩) next

def inner (literal : Bytes) : Bytes := (literal.drop 1).dropLast

def stringValue : Rule (Value Span) := positioned fun c =>
  match c.lexeme? .string with
  | none => .noMatch c
  | some (literal, next) =>
    if literal.any (· < 0x20) then c.fail (.invalidString literal)
    else .matched (fun loc => .string loc (unescape (inner literal))) next

def booleanValue : Rule (Value Span) := positioned fun c =>
  match c.keyword? (bytes "true") with
  | some next => .matched (fun loc => .boolean loc true) next
  | none => match c.keyword? (bytes "false") with
    | some next => .matched (fun loc => .boolean loc false) next
    | none => .noMatch c

def enumValue : Rule (Value Span) := positioned fun c =>
  (name c).map fun n loc => .enum loc n

/-- A list value whose members are read by `item`. -/
def listValueOf (item : Rule (Value Span)) : Rule (Value Span) := positioned fun c =>
  match c.literal? (bytes "[") with
  | none => .noMatch c
  | some next =>
    (many item next).andThen fun elements next =>
      (expect (bytes "]") next).map fun _ loc => .list loc elements

def objectFieldOf (item : Rule (Value Span)) : Rule (ObjectField Span) := positioned fun c =>
  (memberName c).andThen fun n next =>
    (expect (bytes ":") next).andThen fun _ next =>
      ((item next).require .value).map fun v loc => .mk loc n v

def objectValueOf (item : Rule (Value Span)) : Rule (Value Span) := positioned fun c =>
  match c.literal? (bytes "\x7b") with
  | none => .noMatch c
  | some next =>
    (many (objectFieldOf item) next).andThen fun fields next =>
      (expect (bytes "\x7d") next).map fun _ loc => .object loc fields

/-- Whether variables may stand in a value. -/
inductive Constancy where
  | constant
  | variable
deriving DecidableEq, Repr

def variableWhere : Constancy → Rule (Value Span)
  | .constant => fun c => .noMatch c
  | .variable => variableValue

/-- A value nested less than `fuel` deep. -/
def valueWithin (k : Constancy) : (fuel : Nat) → Rule (Value Span)
  | 0 => fun c => .noMatch c
  | fuel + 1 => fun c =>
    (variableWhere k c).orElse fun _ =>
    (numberValue c).orElse fun _ =>
    (stringValue c).orElse fun _ =>
    (booleanValue c).orElse fun _ =>
    (enumValue c).orElse fun _ =>
    (listValueOf (valueWithin k fuel) c).orElse fun _ =>
    objectValueOf (valueWithin k fuel) c

/-- Any value. Each level of nesting takes a bracket, so the length of the text ahead is fuel
enough. -/
def value (k : Constancy) : Rule (Value Span) := fun c => valueWithin k (c.rest.length + 1) c

def listValue (k : Constancy) : Rule (Value Span) := listValueOf (value k)

def objectField (k : Constancy) : Rule (ObjectField Span) := objectFieldOf (value k)

def objectValue (k : Constancy) : Rule (Value Span) := objectValueOf (value k)

/-- An equals sign and a constant value. -/
def defaultValue : Rule (Value Span) := fun c =>
  match c.literal? (bytes "=") with
  | none => .noMatch c
  | some next => (value .constant next).require .value

end SchemaDoc.Grammar
