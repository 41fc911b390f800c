import SchemaDoc.Data.Basic
import SchemaDoc.Syntax.Walk

/-! # Trees as data

Every node becomes a map with its kind, its location and one entry for each of
its parts. Lists keep their order and their comments, a missing argument list is
null where an empty one is an empty list, and a number becomes the binary number
nearest to it.
-/

namespace SchemaDoc

/-- The location of a node in its map. -/
def Span.tree (s : Span) : Data := .map [(bytes "end", .nat s.stop), (bytes "start", .nat s.start)]

/-- The map of a node from its kind, its location and its parts. -/
def nodeTree (kind : Kind) (loc : Span) (parts : List (Bytes × Data)) : Data :=
  .map ((bytes "kind", .text kind.label) :: (bytes "loc", loc.tree) :: parts)

def Comment.tree (c : Comment Span) : Data := nodeTree .comment c.loc [(bytes "value", .text c.text)]

def Name.tree (n : Name Span) : Data := nodeTree .name n.loc [(bytes "value", .text n.text)]

namespace Element

def tree {α : Type} (memberTree : α → Data) : Element Span α → Data
  | .comment c => c.tree
  | .member a => memberTree a

def trees {α : Type} (memberTree : α → Data) (elements : List (Element Span α)) : Data :=
  .list (elements.map (tree memberTree))

end Element

def NamedType.tree (t : NamedType Span) : Data :=
  nodeTree .namedType t.loc [(bytes "name", t.name.tree)]

def TypeRef.tree : TypeRef Span → Data
  | .named t => t.tree
  | .list loc inner => nodeTree .listType loc [(bytes "type", inner.tree)]
  | .nonNull loc inner => nodeTree .nonNullType loc [(bytes "type", inner.tree)]

mutual

def Value.tree : Value Span → Data
  | .variable loc name => nodeTree .variable loc [(bytes "name", name.tree)]
  | .number loc n => nodeTree .numberValue loc [(bytes "value", .number n.exact.toBinary64)]
  | .string loc text => nodeTree .stringValue loc [(bytes "value", .text text)]
  | .boolean loc b => nodeTree .booleanValue loc [(bytes "value", .boolean b)]
  | .enum loc name => nodeTree .enumValue loc [(bytes "name", name.tree)]
  | .list loc elements =>
    nodeTree .listValue loc [(bytes "values", .list (Value.elementTrees elements))]
  | .object loc fields =>
    nodeTree .objectValue loc [(bytes "fields", .list (Value.fieldTrees fields))]

def Value.elementTrees : List (Element Span (Value Span)) → List Data
  | [] => []
  | .comment c :: rest => c.tree :: Value.elementTrees rest
  | .member v :: rest => v.tree :: Value.elementTrees rest

def Value.fieldTrees : List (Element Span (ObjectField Span)) → List Data
  | [] => []
  | .comment c :: rest => c.tree :: Value.fieldTrees rest
  | .member f :: rest => f.tree :: Value.fieldTrees rest

def ObjectField.tree : ObjectField Span → Data
  | .mk loc name value =>
    nodeTree .objectField loc [(bytes "name", name.tree), (bytes "value", value.tree)]

end

def InputValue.tree (i : InputValue Span) : Data :=
  nodeTree .inputValueDefinition i.loc
    [(bytes "defaultValue", (i.default.map Value.tree).getD .null), (bytes "name", i.name.tree),
      (bytes "type", i.type.tree)]

def Field.tree (f : Field Span) : Data :=
  nodeTree .fieldDefinition f.loc
    [(bytes "arguments", (f.arguments.map (Element.trees InputValue.tree)).getD .null),
      (bytes "name", f.name.tree), (bytes "type", f.type.tree)]

def EnumMember.tree (m : EnumMember Span) : Data :=
  nodeTree .enumValueDefinition m.loc [(bytes "name", m.name.tree)]

def ObjectType.tree (o : ObjectType Span) : Data :=
  nodeTree .objectTypeDefinition o.loc
    [(bytes "fields", Element.trees Field.tree o.fields),
      (bytes "interfaces", Element.trees NamedType.tree o.interfaces),
      (bytes "name", o.name.tree)]

def Definition.tree : Definition Span → Data
  | .object o => o.tree
  | .interface loc name fields =>
    nodeTree .interfaceTypeDefinition loc
      [(bytes "fields", Element.trees Field.tree fields), (bytes "name", name.tree)]
  | .union loc name members =>
    nodeTree .unionTypeDefinition loc
      [(bytes "name", name.tree), (bytes "types", .list (members.map NamedType.tree))]
  | .scalar loc name => nodeTree .scalarTypeDefinition loc [(bytes "name", name.tree)]
  | .enum loc name members =>
    nodeTree .enumTypeDefinition loc
      [(bytes "name", name.tree), (bytes "values", Element.trees EnumMember.tree members)]
  | .input loc name fields =>
    nodeTree .inputObjectTypeDefinition loc
      [(bytes "fields", Element.trees InputValue.tree fields), (bytes "name", name.tree)]
  | .extension loc o => nodeTree .typeExtensionDefinition loc [(bytes "definition", o.tree)]

def Document.tree (d : Document Span) : Data :=
  nodeTree .document d.loc [(bytes "definitions", Element.trees Definition.tree d.definitions)]

def Node.tree : Node Span → Data
  | .document d => d.tree
  | .comment c => c.tree
  | .name n => n.tree
  | .type t => t.tree
  | .definition d => d.tree
  | .enumMember m => m.tree
  | .inputValue i => i.tree
  | .field f => f.tree
  | .value v => v.tree
  | .objectField f => f.tree

end SchemaDoc
