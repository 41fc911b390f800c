import SchemaDoc.Proofs.Data.Order
import SchemaDoc.Proofs.Syntax.Part
import SchemaDoc.Proofs.Tree.Rounded

/-! # Reading a tree back

A reader from data to syntax trees. It works from the leaves up: the parts of a
map are read first, and a map is then a node if it has a kind, a location and the
parts of that kind. Entries are found by their keys alone. The reader recovers
everything from the data of a document except what rounding loses of its numbers.
-/

namespace SchemaDoc

theorem bytes_inj {s t : String} : bytes s = bytes t ↔ s = t := by
  constructor
  · intro h
    apply String.toByteArray_inj.mp
    apply ByteArray.ext
    exact Array.toList_inj.mp h
  · rintro rfl
    rfl

def Kind.ofLabel? (label : Bytes) : Option Kind := Kind.all.find? (·.label == label)

@[simp] theorem Kind.ofLabel?_label (k : Kind) : Kind.ofLabel? k.label = some k := by
  cases k <;> rfl

/-- The nodes that are made of an `α`, none of them a comment. -/
structure NodeSort (α : Type) where
  node : α → Node Span
  member? : Node Span → Option α
  member?_node (a : α) : member? (node a) = some a
  comment?_node (a : α) : (node a).comment? = none

namespace NodeSort

def name : NodeSort (Name Span) where
  node := .name
  member? | .name n => some n | _ => none
  member?_node _ := rfl
  comment?_node _ := rfl

def type : NodeSort (TypeRef Span) where
  node := .type
  member? | .type t => some t | _ => none
  member?_node _ := rfl
  comment?_node _ := rfl

def namedType : NodeSort (NamedType Span) where
  node t := .type (.named t)
  member? | .type (.named t) => some t | _ => none
  member?_node _ := rfl
  comment?_node _ := rfl

def definition : NodeSort (Definition Span) where
  node := .definition
  member? | .definition d => some d | _ => none
  member?_node _ := rfl
  comment?_node _ := rfl

def objectType : NodeSort (ObjectType Span) where
  node o := .definition (.object o)
  member? | .definition (.object o) => some o | _ => none
  member?_node _ := rfl
  comment?_node _ := rfl

def enumMember : NodeSort (EnumMember Span) where
  node := .enumMember
  member? | .enumMember m => some m | _ => none
  member?_node _ := rfl
  comment?_node _ := rfl

def inputValue : NodeSort (InputValue Span) where
  node := .inputValue
  member? | .inputValue i => some i | _ => none
  member?_node _ := rfl
  comment?_node _ := rfl

def field : NodeSort (Field Span) where
  node := .field
  member? | .field f => some f | _ => none
  member?_node _ := rfl
  comment?_node _ := rfl

def value : NodeSort (Value Span) where
  node := .value
  member? | .value v => some v | _ => none
  member?_node _ := rfl
  comment?_node _ := rfl

def objectField : NodeSort (ObjectField Span) where
  node := .objectField
  member? | .objectField f => some f | _ => none
  member?_node _ := rfl
  comment?_node _ := rfl

end NodeSort

/-- What a piece of data stands for in a tree. -/
inductive TreePart where
  | atom (data : Data)
  | list (parts : List TreePart)
  | span (span : Span)
  | node (node : Node Span)
  | foreign

namespace TreePart

variable {α : Type}

def text? : TreePart → Option Bytes
  | .atom (.text s) => some s
  | _ => none

def boolean? : TreePart → Option Bool
  | .atom (.boolean b) => some b
  | _ => none

def number? : TreePart → Option Binary64
  | .atom (.number x) => some x
  | _ => none

def nat? : TreePart → Option Nat
  | .atom (.integer (.ofNat n)) => some n
  | _ => none

def span? : TreePart → Option Span
  | .span s => some s
  | _ => none

def node? : TreePart → Option (Node Span)
  | .node n => some n
  | _ => none

def list? (item? : TreePart → Option α) : TreePart → Option (List α)
  | .list parts => parts.mapM item?
  | _ => none

/-- A part that may be null. -/
def nullable? (present? : TreePart → Option α) : TreePart → Option (Option α)
  | .atom .null => some none
  | part => (present? part).map some

/-- The member of a sort in a part. -/
def child? (sort : NodeSort α) (part : TreePart) : Option α := part.node?.bind sort.member?

/-- A comment or a member of a sort. -/
def element? (sort : NodeSort α) (part : TreePart) : Option (Element Span α) :=
  match part.node?.bind Node.comment? with
  | some c => some (.comment c)
  | none => (part.child? sort).map .member

def elements? (sort : NodeSort α) : TreePart → Option (List (Element Span α)) :=
  list? (element? sort)

end TreePart

/-- The parts of a map by their keys. -/
abbrev TreeParts := Bytes → Option TreePart

namespace TreeParts

open TreePart

variable {α : Type}

/-- What `read?` makes of the part under a key. -/
def get? (parts : TreeParts) (key : String) (read? : TreePart → Option α) : Option α :=
  (parts (bytes key)).bind read?

/-- The node of a kind at a location, from its parts. -/
def nodeOf? (parts : TreeParts) (loc : Span) : Kind → Option (Node Span)
  | .invalid => none
  | .document => do
    let definitions ← parts.get? "definitions" (elements? .definition)
    return .document ⟨loc, definitions⟩
  | .comment => do
    let text ← parts.get? "value" text?
    return .comment ⟨loc, text⟩
  | .name => do
    let text ← parts.get? "value" text?
    return .name ⟨loc, text⟩
  | .namedType => do
    let name ← parts.get? "name" (child? .name)
    return .type (.named ⟨loc, name⟩)
  | .listType => do
    let inner ← parts.get? "type" (child? .type)
    return .type (.list loc inner)
  | .nonNullType => do
    let inner ← parts.get? "type" (child? .type)
    return .type (.nonNull loc inner)
  | .objectTypeDefinition => do
    let name ← parts.get? "name" (child? .name)
    let interfaces ← parts.get? "interfaces" (elements? .namedType)
    let fields ← parts.get? "fields" (elements? .field)
    return .definition (.object ⟨loc, name, interfaces, fields⟩)
  | .interfaceTypeDefinition => do
    let name ← parts.get? "name" (child? .name)
    let fields ← parts.get? "fields" (elements? .field)
    return .definition (.interface loc name fields)
  | .unionTypeDefinition => do
    let name ← parts.get? "name" (child? .name)
    let members ← parts.get? "types" (list? (child? .namedType))
    return .definition (.union loc name members)
  | .scalarTypeDefinition => do
    let name ← parts.get? "name" (child? .name)
    return .definition (.scalar loc name)
  | .enumTypeDefinition => do
    let name ← parts.get? "name" (child? .name)
    let members ← parts.get? "values" (elements? .enumMember)
    return .definition (.enum loc name members)
  | .enumValueDefinition => do
    let name ← parts.get? "name" (child? .name)
    return .enumMember ⟨loc, name⟩
  | .inputObjectTypeDefinition => do
    let name ← parts.get? "name" (child? .name)
    let fields ← parts.get? "fields" (elements? .inputValue)
    return .definition (.input loc name fields)
  | .inputValueDefinition => do
    let name ← parts.get? "name" (child? .name)
    let type ← parts.get? "type" (child? .type)
    let default ← parts.get? "defaultValue" (nullable? (child? .value))
    return .inputValue ⟨loc, name, type, default⟩
  | .fieldDefinition => do
    let name ← parts.get? "name" (child? .name)
    let arguments ← parts.get? "arguments" (nullable? (elements? .inputValue))
    let type ← parts.get? "type" (child? .type)
    return .field ⟨loc, name, arguments, type⟩
  | .typeExtensionDefinition => do
    let type ← parts.get? "definition" (child? .objectType)
    return .definition (.extension loc type)
  | .variable => do
    let name ← parts.get? "name" (child? .name)
    return .value (.variable loc name)
  | .numberValue => do
    let x ← parts.get? "value" number?
    return .value (.number loc (.ofBinary64 x))
  | .stringValue => do
    let text ← parts.get? "value" text?
    return .value (.string loc text)
  | .booleanValue => do
    let b ← parts.get? "value" boolean?
    return .value (.boolean loc b)
  | .enumValue => do
    let name ← parts.get? "name" (child? .name)
    return .value (.enum loc name)
  | .listValue => do
    let elements ← parts.get? "values" (elements? .value)
    return .value (.list loc elements)
  | .objectValue => do
    let fields ← parts.get? "fields" (elements? .objectField)
    return .value (.object loc fields)
  | .objectField => do
    let name ← parts.get? "name" (child? .name)
    let value ← parts.get? "value" (child? .value)
    return .objectField (.mk loc name value)

def taggedNode? (parts : TreeParts) : Option (Node Span) := do
  let kind ← parts.get? "kind" fun p => p.text?.bind Kind.ofLabel?
  let loc ← parts.get? "loc" span?
  nodeOf? parts loc kind

def spanOf? (parts : TreeParts) : Option Span := do
  let start ← parts.get? "start" nat?
  let stop ← parts.get? "end" nat?
  return ⟨start, stop⟩

/-- What a map with the parts stands for. -/
def assemble (parts : TreeParts) : TreePart :=
  match parts.taggedNode? with
  | some n => .node n
  | none => match parts.spanOf? with
    | some s => .span s
    | none => .foreign

end TreeParts

namespace Data

mutual

/-- What a piece of data stands for. -/
def part : Data → TreePart
  | .list items => .list (itemParts items)
  | .map entries => TreeParts.assemble fun key => (entryParts entries).lookup key
  | .null => .atom .null
  | .boolean b => .atom (.boolean b)
  | .integer n => .atom (.integer n)
  | .number x => .atom (.number x)
  | .text s => .atom (.text s)

def itemParts : List Data → List TreePart
  | [] => []
  | item :: items => item.part :: itemParts items

def entryParts : List (Bytes × Data) → List (Bytes × TreePart)
  | [] => []
  | (key, value) :: entries => (key, value.part) :: entryParts entries

end

@[simp] theorem itemParts_eq (items : List Data) : itemParts items = items.map part := by
  induction items with
  | nil => rfl
  | cons item items ih => rw [itemParts, ih, List.map_cons]

@[simp] theorem entryParts_eq (entries : List (Bytes × Data)) :
    entryParts entries = entries.map fun e => (e.1, e.2.part) := by
  induction entries with
  | nil => rfl
  | cons e entries ih => rw [entryParts, ih, List.map_cons]

mutual

/-- The order of entries does not matter. -/
theorem part_sorted : (d : Data) → d.sorted.part = d.part
  | .list items => by rw [sorted, part, part, itemParts_sorted items]
  | .map entries => by
    have hentries : entryParts (sortEntries Bytes.le (sortedEntries entries)) =
        sortEntries Bytes.le (entryParts entries) := by
      rw [entryParts_eq, map_sortEntries, ← entryParts_eq, entryParts_sorted entries]
    rw [sorted, part, part, hentries]
    simp only [lookup_sortEntries]
  | .null => rfl
  | .boolean _ => rfl
  | .integer _ => rfl
  | .number _ => rfl
  | .text _ => rfl

theorem itemParts_sorted : (items : List Data) → itemParts (sortedItems items) = itemParts items
  | [] => rfl
  | item :: items => by
    rw [sortedItems, itemParts, itemParts, item.part_sorted, itemParts_sorted items]

theorem entryParts_sorted : (entries : List (Bytes × Data)) →
    entryParts (sortedEntries entries) = entryParts entries
  | [] => rfl
  | (key, value) :: entries => by
    rw [sortedEntries, entryParts, entryParts, value.part_sorted, entryParts_sorted entries]

end

end Data

/-- The document that a piece of data stands for, if it stands for one. -/
def Document.ofTree? (d : Data) : Option (Document Span) :=
  match d.part with
  | .node (.document document) => some document
  | _ => none

namespace TreeParts

variable {α : Type}

@[simp] theorem get?_cons (key s : String) (p : TreePart) (ps : List (Bytes × TreePart))
    (read? : TreePart → Option α) :
    get? (fun k => ((bytes s, p) :: ps).lookup k) key read? =
      if key = s then read? p else get? (fun k => ps.lookup k) key read? := by
  rw [get?, get?, List.lookup_cons]
  by_cases h : key = s
  · simp [h]
  · have hne : (bytes key == bytes s) = false := by simpa [bytes_inj] using h
    simp [h, hne]

@[simp] theorem get?_none (key : String) (read? : TreePart → Option α) :
    get? (fun _ => none) key read? = none := rfl

end TreeParts

@[simp] theorem Span.part_tree (s : Span) : s.tree.part = .span s := by
  simp [Span.tree, Data.part, TreeParts.assemble, TreeParts.taggedNode?, TreeParts.spanOf?,
    Data.nat, TreePart.nat?]

/-- The map of a node stands for the node that its kind makes of its parts. -/
theorem part_nodeTree {kind : Kind} {loc : Span} {entries : List (Bytes × Data)} {n : Node Span}
    (h : TreeParts.nodeOf?
      (fun key => ((bytes "kind", .atom (.text kind.label)) :: (bytes "loc", .span loc) ::
        entries.map fun e => (e.1, e.2.part)).lookup key) loc kind = some n) :
    (nodeTree kind loc entries).part = .node n := by
  simp [nodeTree, Data.part, TreeParts.assemble, TreeParts.taggedNode?, TreePart.text?,
    TreePart.span?, h]

namespace TreePart

variable {α β : Type}

@[simp] theorem child?_node (sort : NodeSort α) (a : α) :
    child? sort (.node (sort.node a)) = some a :=
  sort.member?_node a

/-- A part that can be read as something other than null is not null. -/
theorem nullable?_eq_some {present? : TreePart → Option α} {p : TreePart} {a : α}
    (h : present? p = some a) (hnull : present? (.atom .null) = none) :
    nullable? present? p = some (some a) := by
  unfold nullable?
  split
  · rw [hnull] at h
    nomatch h
  · rw [h, Option.map_some]

theorem mapM_map {read? : TreePart → Option β} {write : α → TreePart} {f : α → β}
    (h : ∀ a, read? (write a) = some (f a)) (items : List α) :
    (items.map write).mapM read? = some (items.map f) := by
  induction items with
  | nil => rfl
  | cons a items ih => simp [h, ih]

/-- Elements are read back from their nodes. -/
@[simp] theorem elements?_nodes (sort : NodeSort α) (elements : List (Element Span α)) :
    elements? sort (.list (elements.map fun e => .node (e.node sort.node))) = some elements := by
  have hnode (e : Element Span α) : element? sort (.node (e.node sort.node)) = some e := by
    cases e with
    | comment c => rfl
    | member a => simp [element?, node?, Element.node, sort.comment?_node]
  rw [elements?, list?, mapM_map hnode, List.map_id']

end TreePart

open TreePart

@[simp] theorem Name.part_tree (n : Name Span) :
    n.tree.part = .node (NodeSort.name.node n) := by
  apply part_nodeTree
  simp [TreeParts.nodeOf?, Data.part, text?, NodeSort.name]

@[simp] theorem Comment.part_tree (c : Comment Span) : c.tree.part = .node (.comment c) := by
  apply part_nodeTree
  simp [TreeParts.nodeOf?, Data.part, text?]

theorem Element.part_trees {α : Type} (sort : NodeSort α) {tree : α → Data} {f : α → α}
    (h : ∀ a, (tree a).part = .node (sort.node (f a))) (elements : List (Element Span α)) :
    (Element.trees tree elements).part =
      .list ((Element.onMembers f elements).map fun e => .node (e.node sort.node)) := by
  rw [Element.trees, Data.part, Data.itemParts_eq, Element.onMembers, List.map_map, List.map_map]
  congr 1
  apply List.map_congr_left
  rintro (c | a) _
  · exact c.part_tree
  · exact h a

@[simp] theorem NamedType.part_tree (t : NamedType Span) :
    t.tree.part = .node (NodeSort.namedType.node t) := by
  apply part_nodeTree
  change _ = some (Node.type (.named t))
  simp [TreeParts.nodeOf?]

@[simp] theorem TypeRef.part_tree (t : TypeRef Span) :
    t.tree.part = .node (NodeSort.type.node t) := by
  induction t with
  | named t => exact t.part_tree
  | list loc inner ih =>
    apply part_nodeTree
    change _ = some (Node.type (.list loc inner))
    simp [TreeParts.nodeOf?, ih]
  | nonNull loc inner ih =>
    apply part_nodeTree
    change _ = some (Node.type (.nonNull loc inner))
    simp [TreeParts.nodeOf?, ih]

mutual

theorem Value.part_tree : (v : Value Span) → v.tree.part = .node (NodeSort.value.node v.rounded)
  | .variable loc name => by
    apply part_nodeTree
    simp [TreeParts.nodeOf?, Value.rounded, NodeSort.value]
  | .number loc n => by
    apply part_nodeTree
    simp [TreeParts.nodeOf?, Data.part, number?, Value.rounded, Numeral.rounded, NodeSort.value]
  | .string loc text => by
    apply part_nodeTree
    simp [TreeParts.nodeOf?, Data.part, text?, Value.rounded, NodeSort.value]
  | .boolean loc b => by
    apply part_nodeTree
    simp [TreeParts.nodeOf?, Data.part, boolean?, Value.rounded, NodeSort.value]
  | .enum loc name => by
    apply part_nodeTree
    simp [TreeParts.nodeOf?, Value.rounded, NodeSort.value]
  | .list loc elements => by
    apply part_nodeTree
    change _ = some (Node.value (.list loc (Value.roundedElements elements)))
    simp only [List.map_cons, Data.part, Value.itemParts_elementTrees elements]
    simp [TreeParts.nodeOf?]
  | .object loc fields => by
    apply part_nodeTree
    change _ = some (Node.value (.object loc (Value.roundedFields fields)))
    simp only [List.map_cons, Data.part, Value.itemParts_fieldTrees fields]
    simp [TreeParts.nodeOf?]

theorem Value.itemParts_elementTrees : (elements : List (Element Span (Value Span))) →
    Data.itemParts (Value.elementTrees elements) =
      (Value.roundedElements elements).map fun e => .node (e.node NodeSort.value.node)
  | [] => rfl
  | .comment c :: rest => by
    rw [Value.elementTrees, Data.itemParts, c.part_tree, Value.itemParts_elementTrees rest]
    rfl
  | .member v :: rest => by
    rw [Value.elementTrees, Data.itemParts, v.part_tree, Value.itemParts_elementTrees rest]
    rfl

theorem Value.itemParts_fieldTrees : (fields : List (Element Span (ObjectField Span))) →
    Data.itemParts (Value.fieldTrees fields) =
      (Value.roundedFields fields).map fun e => .node (e.node NodeSort.objectField.node)
  | [] => rfl
  | .comment c :: rest => by
    rw [Value.fieldTrees, Data.itemParts, c.part_tree, Value.itemParts_fieldTrees rest]
    rfl
  | .member f :: rest => by
    rw [Value.fieldTrees, Data.itemParts, f.part_tree, Value.itemParts_fieldTrees rest]
    rfl

theorem ObjectField.part_tree : (f : ObjectField Span) →
    f.tree.part = .node (NodeSort.objectField.node f.rounded)
  | .mk loc name value => by
    apply part_nodeTree
    change _ = some (Node.objectField (.mk loc name value.rounded))
    simp [TreeParts.nodeOf?, value.part_tree]

end

theorem InputValue.part_tree (i : InputValue Span) :
    i.tree.part = .node (NodeSort.inputValue.node i.rounded) := by
  have hdefault : nullable? (child? .value) ((i.default.map Value.tree).getD .null).part =
      some (i.default.map Value.rounded) := by
    cases i.default with
    | none => rfl
    | some v =>
      apply nullable?_eq_some _ rfl
      rw [Option.map_some, Option.getD_some, v.part_tree, child?_node]
  apply part_nodeTree
  change _ = some (Node.inputValue i.rounded)
  simp [TreeParts.nodeOf?, hdefault, InputValue.rounded]

theorem Field.part_tree (f : Field Span) : f.tree.part = .node (NodeSort.field.node f.rounded) := by
  have harguments : nullable? (elements? .inputValue)
      ((f.arguments.map (Element.trees InputValue.tree)).getD .null).part =
        some (f.arguments.map (Element.onMembers InputValue.rounded)) := by
    cases f.arguments with
    | none => rfl
    | some arguments =>
      apply nullable?_eq_some _ rfl
      rw [Option.map_some, Option.getD_some, Element.part_trees .inputValue InputValue.part_tree,
        elements?_nodes]
  apply part_nodeTree
  change _ = some (Node.field f.rounded)
  simp [TreeParts.nodeOf?, harguments, Field.rounded]

@[simp] theorem EnumMember.part_tree (m : EnumMember Span) :
    m.tree.part = .node (NodeSort.enumMember.node m) := by
  apply part_nodeTree
  change _ = some (Node.enumMember m)
  simp [TreeParts.nodeOf?]

theorem ObjectType.part_tree (o : ObjectType Span) :
    o.tree.part = .node (NodeSort.objectType.node o.rounded) := by
  apply part_nodeTree
  change _ = some (Node.definition (.object o.rounded))
  simp [TreeParts.nodeOf?, Element.part_trees .field Field.part_tree,
    Element.part_trees .namedType (f := id) NamedType.part_tree, ObjectType.rounded]

theorem NamedType.list?_trees (members : List (NamedType Span)) :
    list? (child? .namedType) (Data.list (members.map NamedType.tree)).part = some members := by
  rw [Data.part, Data.itemParts_eq, List.map_map, list?, mapM_map (f := id), List.map_id]
  intro t
  rw [Function.comp_apply, t.part_tree, child?_node, id]

theorem Definition.part_tree (d : Definition Span) :
    d.tree.part = .node (NodeSort.definition.node d.rounded) := by
  cases d with
  | object o => exact o.part_tree
  | interface loc name fields =>
    apply part_nodeTree
    change _ = some (Node.definition (.interface loc name (Element.onMembers Field.rounded fields)))
    simp [TreeParts.nodeOf?, Element.part_trees .field Field.part_tree]
  | union loc name members =>
    apply part_nodeTree
    change _ = some (Node.definition (.union loc name members))
    have hmembers := NamedType.list?_trees members
    simp only [List.map_cons]
    generalize (Data.list (members.map NamedType.tree)).part = p at *
    simp [TreeParts.nodeOf?, hmembers]
  | scalar loc name =>
    apply part_nodeTree
    change _ = some (Node.definition (.scalar loc name))
    simp [TreeParts.nodeOf?]
  | enum loc name members =>
    apply part_nodeTree
    change _ = some (Node.definition (.enum loc name members))
    simp [TreeParts.nodeOf?, Element.part_trees .enumMember (f := id) EnumMember.part_tree]
  | input loc name fields =>
    apply part_nodeTree
    change _ =
      some (Node.definition (.input loc name (Element.onMembers InputValue.rounded fields)))
    simp [TreeParts.nodeOf?, Element.part_trees .inputValue InputValue.part_tree]
  | extension loc o =>
    apply part_nodeTree
    change _ = some (Node.definition (.extension loc o.rounded))
    simp [TreeParts.nodeOf?, o.part_tree]

theorem Document.part_tree (d : Document Span) : d.tree.part = .node (.document d.rounded) := by
  apply part_nodeTree
  simp [TreeParts.nodeOf?, Element.part_trees .definition Definition.part_tree, Document.rounded]

theorem Document.ofTree?_tree (d : Document Span) : Document.ofTree? d.tree = some d.rounded := by
  rw [Document.ofTree?, d.part_tree]

theorem Document.ofTree?_sorted (t : Data) : Document.ofTree? t.sorted = Document.ofTree? t := by
  rw [Document.ofTree?, t.part_sorted, ← Document.ofTree?]

/-- The data of a document can be read back, by a reader for which the entries of a map have no
order. All of the document is recovered but what rounding loses of its numbers, so two documents
have the same data just when they are equal after rounding. -/
theorem Document.tree_faithful (d d' : Document Span) :
    Document.ofTree? d.tree = some d.rounded ∧
      (∀ t : Data, Document.ofTree? t.sorted = Document.ofTree? t) ∧
      (d.tree.sorted = d'.tree.sorted ↔ d.rounded = d'.rounded) := by
  refine ⟨d.ofTree?_tree, Document.ofTree?_sorted, ?_, ?_⟩
  · intro h
    apply Option.some.inj
    rw [← d.ofTree?_tree, ← d'.ofTree?_tree, ← Document.ofTree?_sorted d.tree, h,
      Document.ofTree?_sorted]
  · intro h
    rw [← d.tree_rounded, h, d'.tree_rounded]

end SchemaDoc
