import SchemaDoc.Proofs.Syntax.Address
import SchemaDoc.Tree

/-! # The shape of a tree's data

The map of a node has the keys of its kind. Under each of them stands nothing, a
truth value, a number, the text of the node, the data of a child or a list of the
data of children. What passes from these parts to the map of the node therefore
holds of the data of every tree.
-/

namespace SchemaDoc

/-- The keys of the parts of a node. -/
def Kind.partKeys : Kind → List Bytes
  | .invalid => []
  | .document => [bytes "definitions"]
  | .comment => [bytes "value"]
  | .name => [bytes "value"]
  | .namedType => [bytes "name"]
  | .listType => [bytes "type"]
  | .nonNullType => [bytes "type"]
  | .objectTypeDefinition => [bytes "fields", bytes "interfaces", bytes "name"]
  | .interfaceTypeDefinition => [bytes "fields", bytes "name"]
  | .unionTypeDefinition => [bytes "name", bytes "types"]
  | .scalarTypeDefinition => [bytes "name"]
  | .enumTypeDefinition => [bytes "name", bytes "values"]
  | .enumValueDefinition => [bytes "name"]
  | .inputObjectTypeDefinition => [bytes "fields", bytes "name"]
  | .inputValueDefinition => [bytes "defaultValue", bytes "name", bytes "type"]
  | .fieldDefinition => [bytes "arguments", bytes "name", bytes "type"]
  | .typeExtensionDefinition => [bytes "definition"]
  | .variable => [bytes "name"]
  | .numberValue => [bytes "value"]
  | .stringValue => [bytes "value"]
  | .booleanValue => [bytes "value"]
  | .enumValue => [bytes "name"]
  | .listValue => [bytes "values"]
  | .objectValue => [bytes "fields"]
  | .objectField => [bytes "name", bytes "value"]

/-- The keys in the map of a node. -/
def Kind.keys (k : Kind) : List Bytes := bytes "kind" :: bytes "loc" :: k.partKeys

theorem Kind.nodup_keys (k : Kind) : k.keys.Nodup := by
  cases k <;> decide +kernel

theorem Kind.keys_eq {kind : Kind} (loc : Span) {parts : List (Bytes × Data)}
    (hparts : parts.map Prod.fst = kind.partKeys) :
    ((bytes "kind", Data.text kind.label) :: (bytes "loc", loc.tree) :: parts).map Prod.fst =
      kind.keys := by
  rw [List.map_cons, List.map_cons, hparts]
  rfl

/-- A property of data that passes from the parts of a node to its map. -/
structure Data.Inherited (P : Data → Prop) : Prop where
  null : P .null
  boolean (b : Bool) : P (.boolean b)
  number (x : Binary64) : P (.number x)
  list (ms : List (Node Span)) : (∀ m ∈ ms, P m.tree) → P (.list (ms.map Node.tree))
  node (kind : Kind) (loc : Span) (parts : List (Bytes × Data)) :
    parts.map Prod.fst = kind.partKeys → (∀ e ∈ parts, P e.2) → P (nodeTree kind loc parts)

theorem Element.trees_eq {α : Type} (ofMember : α → Node Span) {tree : α → Data}
    (htree : ∀ a, (ofMember a).tree = tree a) (elements : List (Element Span α)) :
    trees tree elements = .list ((elements.map (node ofMember)).map Node.tree) := by
  rw [trees, List.map_map]
  congr 1
  refine List.map_congr_left fun e _ => ?_
  cases e with
  | comment c => rfl
  | member a => exact (htree a).symm

theorem Value.elementTrees_eq (elements : List (Element Span (Value Span))) :
    Data.list (elementTrees elements) = Element.trees tree elements := by
  have h : elementTrees elements = elements.map (Element.tree tree) := by
    induction elements with
    | nil => rfl
    | cons e elements ih => cases e <;> simp [elementTrees, Element.tree, ih]
  rw [h, Element.trees]

theorem Value.fieldTrees_eq (fields : List (Element Span (ObjectField Span))) :
    Data.list (fieldTrees fields) = Element.trees ObjectField.tree fields := by
  have h : fieldTrees fields = fields.map (Element.tree ObjectField.tree) := by
    induction fields with
    | nil => rfl
    | cons e fields ih => cases e <;> simp [fieldTrees, Element.tree, ih]
  rw [h, Element.trees]

namespace Node

/-- The text that a node holds itself. -/
def text? {L : Type} : Node L → Option Bytes
  | .comment c => some c.text
  | .name n => some n.text
  | .value (.string _ text) => some text
  | _ => none

/-- What may stand under a key in the map of a node. -/
inductive IsPart (n : Node Span) : Data → Prop
  | null : IsPart n .null
  | boolean (b : Bool) : IsPart n (.boolean b)
  | number (x : Binary64) : IsPart n (.number x)
  | text {s : Bytes} (h : n.text? = some s) : IsPart n (.text s)
  | child {m : Node Span} (h : m ∈ n.children) : IsPart n m.tree
  | children {ms : List (Node Span)} (h : ∀ m ∈ ms, m ∈ n.children) :
      IsPart n (.list (ms.map tree))

theorem IsPart.elements {α : Type} {n : Node Span} {tree : α → Data} (ofMember : α → Node Span)
    (htree : ∀ a, (ofMember a).tree = tree a) {elements : List (Element Span α)}
    (h : ∀ e ∈ elements, e.node ofMember ∈ n.children) :
    n.IsPart (Element.trees tree elements) := by
  rw [Element.trees_eq ofMember htree]
  exact .children (List.forall_mem_map.mpr h)

/-- The parts of a map are those of its node. -/
def PartsOf (n : Node Span) (parts : List (Bytes × Data)) : Prop :=
  parts.map Prod.fst = n.kind.partKeys ∧ ∀ e ∈ parts, n.IsPart e.2

theorem partsOf_type (t : TypeRef Span) :
    ∃ parts, t.tree = nodeTree t.kind t.loc parts ∧ (Node.type t).PartsOf parts := by
  cases t with
  | named t =>
    exact ⟨_, rfl, rfl, List.forall_mem_singleton.mpr
      (.child (m := .name t.name) (by simp [children, parts, TypeRef.parts]))⟩
  | list loc inner =>
    exact ⟨_, rfl, rfl, List.forall_mem_singleton.mpr
      (.child (m := .type inner) (by simp [children, parts, TypeRef.parts, List.filterMap_cons]))⟩
  | nonNull loc inner =>
    exact ⟨_, rfl, rfl, List.forall_mem_singleton.mpr
      (.child (m := .type inner) (by simp [children, parts, TypeRef.parts]))⟩

theorem partsOf_value (v : Value Span) :
    ∃ parts, v.tree = nodeTree v.kind v.loc parts ∧ (Node.value v).PartsOf parts := by
  cases v with
  | «variable» loc name =>
    exact ⟨_, rfl, rfl, List.forall_mem_singleton.mpr
      (.child (m := .name name) (by simp [children, parts, Value.parts, List.filterMap_cons]))⟩
  | number loc n => exact ⟨_, rfl, rfl, List.forall_mem_singleton.mpr (.number _)⟩
  | string loc text => exact ⟨_, rfl, rfl, List.forall_mem_singleton.mpr (.text rfl)⟩
  | boolean loc b => exact ⟨_, rfl, rfl, List.forall_mem_singleton.mpr (.boolean b)⟩
  | enum loc name =>
    exact ⟨_, rfl, rfl, List.forall_mem_singleton.mpr
      (.child (m := .name name) (by simp [children, parts, Value.parts]))⟩
  | list loc elements =>
    rw [Value.tree, Value.elementTrees_eq]
    exact ⟨_, rfl, rfl, List.forall_mem_singleton.mpr (.elements .value (fun _ => rfl)
      fun e he => by simpa [children, parts, Value.parts, List.filterMap_cons] using ⟨e, he, rfl⟩)⟩
  | object loc fields =>
    rw [Value.tree, Value.fieldTrees_eq]
    exact ⟨_, rfl, rfl, List.forall_mem_singleton.mpr (.elements .objectField (fun _ => rfl)
      fun e he => by simpa [children, parts, Value.parts, List.filterMap_cons] using ⟨e, he, rfl⟩)⟩

theorem partsOf_definition (d : Definition Span) :
    ∃ parts, d.tree = nodeTree d.kind d.loc parts ∧ (Node.definition d).PartsOf parts := by
  cases d with
  | object o =>
    refine ⟨_, rfl, rfl, ?_⟩
    simp only [List.forall_mem_cons]
    refine ⟨.elements .field (fun _ => rfl) fun e he => ?_,
      .elements (fun t => .type (.named t)) (fun _ => rfl) fun e he => ?_,
      .child (m := .name o.name) ?_, List.forall_mem_nil _⟩
    · simpa [children, parts, Definition.parts, ObjectType.parts, List.filterMap_cons]
        using .inr (.inr ⟨e, he, rfl⟩)
    · simpa [children, parts, Definition.parts, ObjectType.parts, List.filterMap_cons]
        using .inr (.inl ⟨e, he, rfl⟩)
    · simp [children, parts, Definition.parts, ObjectType.parts, List.filterMap_cons]
  | interface loc name fields =>
    refine ⟨_, rfl, rfl, ?_⟩
    simp only [List.forall_mem_cons]
    refine ⟨.elements .field (fun _ => rfl) fun e he => ?_, .child (m := .name name) ?_,
      List.forall_mem_nil _⟩
    · simpa [children, parts, Definition.parts, List.filterMap_cons] using .inr ⟨e, he, rfl⟩
    · simp [children, parts, Definition.parts, List.filterMap_cons]
  | union loc name members =>
    have hmembers : members.map NamedType.tree =
        (members.map fun t => Node.type (.named t)).map Node.tree := by
      rw [List.map_map]
      rfl
    rw [Definition.tree, hmembers]
    refine ⟨_, rfl, rfl, ?_⟩
    simp only [List.forall_mem_cons]
    refine ⟨.child (m := .name name) ?_, .children fun m hm => ?_, List.forall_mem_nil _⟩
    · simp [children, parts, Definition.parts, List.filterMap_cons]
    · simpa [children, parts, Definition.parts, List.filterMap_cons] using .inr (List.mem_map.mp hm)
  | scalar loc name =>
    exact ⟨_, rfl, rfl, List.forall_mem_singleton.mpr
      (.child (m := .name name) (by simp [children, parts, Definition.parts, List.filterMap_cons]))⟩
  | enum loc name members =>
    refine ⟨_, rfl, rfl, ?_⟩
    simp only [List.forall_mem_cons]
    refine ⟨.child (m := .name name) ?_, .elements .enumMember (fun _ => rfl) fun e he => ?_,
      List.forall_mem_nil _⟩
    · simp [children, parts, Definition.parts, List.filterMap_cons]
    · simpa [children, parts, Definition.parts, List.filterMap_cons] using .inr ⟨e, he, rfl⟩
  | input loc name fields =>
    refine ⟨_, rfl, rfl, ?_⟩
    simp only [List.forall_mem_cons]
    refine ⟨.elements .inputValue (fun _ => rfl) fun e he => ?_, .child (m := .name name) ?_,
      List.forall_mem_nil _⟩
    · simpa [children, parts, Definition.parts, List.filterMap_cons] using .inr ⟨e, he, rfl⟩
    · simp [children, parts, Definition.parts, List.filterMap_cons]
  | extension loc o =>
    exact ⟨_, rfl, rfl, List.forall_mem_singleton.mpr (.child (m := .definition (.object o))
      (by simp [children, parts, Definition.parts, List.filterMap_cons]))⟩

theorem partsOf_inputValue (i : InputValue Span) :
    ∃ parts, i.tree = nodeTree .inputValueDefinition i.loc parts ∧
      (Node.inputValue i).PartsOf parts := by
  refine ⟨_, rfl, rfl, ?_⟩
  simp only [List.forall_mem_cons]
  refine ⟨?_, .child (m := .name i.name) ?_, .child (m := .type i.type) ?_, List.forall_mem_nil _⟩
  · cases hdefault : i.default with
    | none => exact .null
    | some v =>
      exact .child (m := .value v) (by
        simp [children, parts, InputValue.parts, Value.defaultParts, hdefault, List.filterMap_cons])
  · simp [children, parts, InputValue.parts, List.filterMap_cons]
  · simp [children, parts, InputValue.parts, List.filterMap_cons]

theorem partsOf_field (f : Field Span) :
    ∃ parts, f.tree = nodeTree .fieldDefinition f.loc parts ∧ (Node.field f).PartsOf parts := by
  refine ⟨_, rfl, rfl, ?_⟩
  simp only [List.forall_mem_cons]
  refine ⟨?_, .child (m := .name f.name) ?_, .child (m := .type f.type) ?_, List.forall_mem_nil _⟩
  · cases harguments : f.arguments with
    | none => exact .null
    | some arguments =>
      exact .elements .inputValue (fun _ => rfl) fun e he => by
        simpa [children, parts, Field.parts, Field.argumentParts, harguments, List.filterMap_cons]
          using .inr (.inl ⟨e, he, rfl⟩)
  · simp [children, parts, Field.parts, List.filterMap_cons]
  · simp [children, parts, Field.parts, List.filterMap_cons]

/-- The map of a node has the keys of its kind, with the parts of the node under them. -/
theorem exists_parts (n : Node Span) :
    ∃ parts, n.tree = nodeTree n.kind n.loc parts ∧ n.PartsOf parts := by
  cases n with
  | document d =>
    exact ⟨_, rfl, rfl, List.forall_mem_singleton.mpr (.elements .definition (fun _ => rfl)
      fun e he => by simpa [children, parts] using ⟨e, he, rfl⟩)⟩
  | comment c => exact ⟨_, rfl, rfl, List.forall_mem_singleton.mpr (.text rfl)⟩
  | name m => exact ⟨_, rfl, rfl, List.forall_mem_singleton.mpr (.text rfl)⟩
  | type t => exact partsOf_type t
  | definition d => exact partsOf_definition d
  | enumMember m =>
    exact ⟨_, rfl, rfl, List.forall_mem_singleton.mpr
      (.child (m := .name m.name) (by simp [children, parts]))⟩
  | inputValue i => exact partsOf_inputValue i
  | field f => exact partsOf_field f
  | value v => exact partsOf_value v
  | objectField f =>
    obtain ⟨loc, name, value⟩ := f
    refine ⟨_, rfl, rfl, ?_⟩
    simp only [List.forall_mem_cons]
    refine ⟨.child (m := .name name) ?_, .child (m := .value value) ?_, List.forall_mem_nil _⟩ <;>
      simp [children, parts, ObjectField.parts, List.filterMap_cons]

/-- What passes to the maps of nodes and holds of the texts of a tree holds of its data. -/
theorem inherited_tree {P : Data → Prop} (h : Data.Inherited P) (n : Node Span)
    (htext : ∀ m ∈ n.walk, ∀ s, m.text? = some s → P (.text s)) : P n.tree := by
  induction n using children_induction with
  | h n ih =>
    rw [walk_eq] at htext
    obtain ⟨hchildren, hself⟩ := List.forall_mem_append.mp htext
    have hchild : ∀ m ∈ n.children, P m.tree := fun m hm =>
      ih m hm fun k hk => hchildren k (List.mem_flatMap.mpr ⟨m, hm, hk⟩)
    obtain ⟨parts, htree, hkeys, hparts⟩ := n.exists_parts
    rw [htree]
    refine h.node _ _ parts hkeys fun ⟨key, d⟩ he => ?_
    have hpart : n.IsPart d := hparts _ he
    cases hpart with
    | null => exact h.null
    | boolean b => exact h.boolean b
    | number x => exact h.number x
    | text hs => exact hself n List.mem_cons_self _ hs
    | child hm => exact hchild _ hm
    | children hms => exact h.list _ fun m hm => hchild m (hms m hm)

end Node

end SchemaDoc
