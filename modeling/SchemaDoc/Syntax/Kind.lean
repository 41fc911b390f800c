import SchemaDoc.Text.Bytes

/-! # Kinds of syntax nodes -/

namespace SchemaDoc

/-- What a node is; `invalid` is the kind of something that is no node of a document. -/
inductive Kind where
  | invalid
  | document
  | comment
  | name
  | namedType
  | listType
  | nonNullType
  | objectTypeDefinition
  | interfaceTypeDefinition
  | unionTypeDefinition
  | scalarTypeDefinition
  | enumTypeDefinition
  | enumValueDefinition
  | inputObjectTypeDefinition
  | inputValueDefinition
  | fieldDefinition
  | typeExtensionDefinition
  | variable
  | numberValue
  | stringValue
  | booleanValue
  | enumValue
  | listValue
  | objectValue
  | objectField
deriving DecidableEq, Repr

namespace Kind

def all : List Kind :=
  [.invalid, .document, .comment, .name, .namedType, .listType, .nonNullType,
    .objectTypeDefinition, .interfaceTypeDefinition, .unionTypeDefinition, .scalarTypeDefinition,
    .enumTypeDefinition, .enumValueDefinition, .inputObjectTypeDefinition, .inputValueDefinition,
    .fieldDefinition, .typeExtensionDefinition, .variable, .numberValue, .stringValue,
    .booleanValue, .enumValue, .listValue, .objectValue, .objectField]

/-- The kind with a number; a number that no kind has is `invalid`. -/
def ofNumber (n : Nat) : Kind := all[n]?.getD .invalid

def label : Kind → Bytes
  | .invalid => bytes "Invalid"
  | .document => bytes "Document"
  | .comment => bytes "Comment"
  | .name => bytes "Name"
  | .namedType => bytes "NamedType"
  | .listType => bytes "ListType"
  | .nonNullType => bytes "NonNullType"
  | .objectTypeDefinition => bytes "ObjectTypeDefinition"
  | .interfaceTypeDefinition => bytes "InterfaceTypeDefinition"
  | .unionTypeDefinition => bytes "UnionTypeDefinition"
  | .scalarTypeDefinition => bytes "ScalarTypeDefinition"
  | .enumTypeDefinition => bytes "EnumTypeDefinition"
  | .enumValueDefinition => bytes "EnumValueDefinition"
  | .inputObjectTypeDefinition => bytes "InputObjectTypeDefinition"
  | .inputValueDefinition => bytes "InputValueDefinition"
  | .fieldDefinition => bytes "FieldDefinition"
  | .typeExtensionDefinition => bytes "TypeExtensionDefinition"
  | .variable => bytes "Variable"
  | .numberValue => bytes "NumberValue"
  | .stringValue => bytes "StringValue"
  | .booleanValue => bytes "BooleanValue"
  | .enumValue => bytes "EnumValue"
  | .listValue => bytes "ListValue"
  | .objectValue => bytes "ObjectValue"
  | .objectField => bytes "ObjectField"

end Kind

end SchemaDoc
