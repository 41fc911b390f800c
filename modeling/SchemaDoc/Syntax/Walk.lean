import SchemaDoc.Syntax.Basic
import SchemaDoc.Syntax.Kind

/-! # Walking a tree

The nodes of a tree from the leaves up: every node stands behind all nodes
beneath it, and siblings stand in source order.
-/

namespace SchemaDoc

variable {L : Type}

/-- Any node of a document. -/
inductive Node (L : Type) where
  | document (document : Document L)
  | comment (comment : Comment L)
  | name (name : Name L)
  | type (type : TypeRef L)
  | definition (definition : Definition L)
  | enumMember (member : EnumMember L)
  | inputValue (input : InputValue L)
  | field (field : Field L)
  | value (value : Value L)
  | objectField (field : ObjectField L)

def TypeRef.kind : TypeRef L → Kind
  | .named _ => .namedType
  | .list _ _ => .listType
  | .nonNull _ _ => .nonNullType

def Value.kind : Value L → Kind
  | .variable _ _ => .variable
  | .number _ _ => .numberValue
  | .string _ _ => .stringValue
  | .boolean _ _ => .booleanValue
  | .enum _ _ => .enumValue
  | .list _ _ => .listValue
  | .object _ _ => .objectValue

def Definition.kind : Definition L → Kind
  | .object _ => .objectTypeDefinition
  | .interface _ _ _ => .interfaceTypeDefinition
  | .union _ _ _ => .unionTypeDefinition
  | .scalar _ _ => .scalarTypeDefinition
  | .enum _ _ _ => .enumTypeDefinition
  | .input _ _ _ => .inputObjectTypeDefinition
  | .extension _ _ => .typeExtensionDefinition

namespace Node

def kind : Node L → Kind
  | .document _ => .document
  | .comment _ => .comment
  | .name _ => .name
  | .type t => t.kind
  | .definition d => d.kind
  | .enumMember _ => .enumValueDefinition
  | .inputValue _ => .inputValueDefinition
  | .field _ => .fieldDefinition
  | .value v => v.kind
  | .objectField _ => .objectField

def loc : Node L → L
  | .document d => d.loc
  | .comment c => c.loc
  | .name n => n.loc
  | .type t => t.loc
  | .definition d => d.loc
  | .enumMember m => m.loc
  | .inputValue i => i.loc
  | .field f => f.loc
  | .value v => v.loc
  | .objectField f => f.loc

def numeral? : Node L → Option Numeral
  | .value (.number _ n) => some n
  | _ => none

def comment? : Node L → Option (Comment L)
  | .comment c => some c
  | _ => none

end Node

/-- The nodes of a list whose members have the nodes `nodes`. -/
def Element.walk {α : Type} (nodes : α → List (Node L)) (elements : List (Element L α)) :
    List (Node L) :=
  elements.flatMap fun
    | .comment c => [.comment c]
    | .member a => nodes a

def NamedType.walk (t : NamedType L) : List (Node L) := [.name t.name, .type (.named t)]

def TypeRef.walk : TypeRef L → List (Node L)
  | .named t => t.walk
  | .list loc inner => inner.walk ++ [.type (.list loc inner)]
  | .nonNull loc inner => inner.walk ++ [.type (.nonNull loc inner)]

mutual

def Value.walk : Value L → List (Node L)
  | .variable loc name => [.name name, .value (.variable loc name)]
  | .number loc n => [.value (.number loc n)]
  | .string loc text => [.value (.string loc text)]
  | .boolean loc b => [.value (.boolean loc b)]
  | .enum loc name => [.name name, .value (.enum loc name)]
  | .list loc elements => Value.walkElements elements ++ [.value (.list loc elements)]
  | .object loc fields => Value.walkFields fields ++ [.value (.object loc fields)]

def Value.walkElements : List (Element L (Value L)) → List (Node L)
  | [] => []
  | .comment c :: rest => .comment c :: Value.walkElements rest
  | .member v :: rest => v.walk ++ Value.walkElements rest

def Value.walkFields : List (Element L (ObjectField L)) → List (Node L)
  | [] => []
  | .comment c :: rest => .comment c :: Value.walkFields rest
  | .member f :: rest => f.walk ++ Value.walkFields rest

def ObjectField.walk : ObjectField L → List (Node L)
  | .mk loc name value => .name name :: value.walk ++ [.objectField (.mk loc name value)]

end

def InputValue.walk (i : InputValue L) : List (Node L) :=
  .name i.name :: i.type.walk ++ (i.default.map Value.walk).getD [] ++ [.inputValue i]

def Field.walk (f : Field L) : List (Node L) :=
  .name f.name :: (f.arguments.map (Element.walk InputValue.walk)).getD [] ++ f.type.walk ++
    [.field f]

def EnumMember.walk (m : EnumMember L) : List (Node L) := [.name m.name, .enumMember m]

def ObjectType.walk (o : ObjectType L) : List (Node L) :=
  .name o.name :: Element.walk NamedType.walk o.interfaces ++ Element.walk Field.walk o.fields ++
    [.definition (.object o)]

def Definition.walk : Definition L → List (Node L)
  | .object o => o.walk
  | .interface loc name fields =>
    .name name :: Element.walk Field.walk fields ++ [.definition (.interface loc name fields)]
  | .union loc name members =>
    .name name :: members.flatMap NamedType.walk ++ [.definition (.union loc name members)]
  | .scalar loc name => [.name name, .definition (.scalar loc name)]
  | .enum loc name members =>
    .name name :: Element.walk EnumMember.walk members ++ [.definition (.enum loc name members)]
  | .input loc name fields =>
    .name name :: Element.walk InputValue.walk fields ++ [.definition (.input loc name fields)]
  | .extension loc o => o.walk ++ [.definition (.extension loc o)]

def Document.walk (d : Document L) : List (Node L) :=
  Element.walk Definition.walk d.definitions ++ [.document d]

namespace Node

/-- A node and all nodes beneath it, the node itself last. -/
def walk : Node L → List (Node L)
  | .document d => d.walk
  | .comment c => [.comment c]
  | .name n => [.name n]
  | .type t => t.walk
  | .definition d => d.walk
  | .enumMember m => m.walk
  | .inputValue i => i.walk
  | .field f => f.walk
  | .value v => v.walk
  | .objectField f => f.walk

/-- The number literals of a tree in walk order. -/
def numerals (n : Node L) : List Numeral := n.walk.filterMap numeral?

end Node

end SchemaDoc
