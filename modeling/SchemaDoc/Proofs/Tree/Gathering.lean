import Mathlib.Data.List.Perm.Basic
import SchemaDoc.Proofs.Tree.Shape

/-! # Gathering over the data of a tree

Something may be gathered from data wherever it stands: from numbers, and from
the maps of nodes by their kind and location. In the data of a tree this finds
what every node of the walk has, each node once, in some order.
-/

namespace SchemaDoc

variable {α β : Type}

/-- The function goes through lists and the maps of nodes, and finds something in the numbers and
for the nodes only. -/
structure Data.Gathers (f : Data → List β) (ofNode : Kind → Span → List β)
    (ofNumber : Binary64 → List β) : Prop where
  null : f .null = []
  boolean : ∀ b, f (.boolean b) = []
  number : ∀ x, f (.number x) = ofNumber x
  text : ∀ s, f (.text s) = []
  list : ∀ items, f (.list items) = items.flatMap f
  node : ∀ kind loc parts,
    f (nodeTree kind loc parts) = ofNode kind loc ++ parts.flatMap fun e => f e.2

namespace Node

/-- What is found for a node alone: by its kind and location, and in its number if it has one. -/
def own (ofNode : Kind → Span → List β) (ofNumber : Binary64 → List β) (n : Node Span) : List β :=
  ofNode n.kind n.loc ++ (n.numeral?.map fun m => ofNumber m.exact.toBinary64).getD []

/-- What is found in the data of each of the nodes. -/
def gathered (f : Data → List β) (nodes : List (Node Span)) : List β :=
  nodes.flatMap fun m => f m.tree

section Gathers

variable {f : Data → List β} {ofNode : Kind → Span → List β} {ofNumber : Binary64 → List β}

@[simp] theorem gathered_nil : gathered f [] = [] := rfl

@[simp] theorem gathered_cons (m : Node Span) (nodes : List (Node Span)) :
    gathered f (m :: nodes) = f m.tree ++ gathered f nodes := List.flatMap_cons

@[simp] theorem gathered_append (nodes others : List (Node Span)) :
    gathered f (nodes ++ others) = gathered f nodes ++ gathered f others := List.flatMap_append

variable (h : Data.Gathers f ofNode ofNumber)

include h

theorem gathered_trees (ofMember : α → Node Span) {tree : α → Data}
    (htree : ∀ a, (ofMember a).tree = tree a) (elements : List (Element Span α)) :
    f (Element.trees tree elements) = gathered f (elements.map (Element.node ofMember)) := by
  rw [Element.trees_eq ofMember htree, h.list, gathered, List.flatMap_map]

theorem gathered_elementTrees (elements : List (Element Span (Value Span))) :
    f (.list (Value.elementTrees elements)) = gathered f (elements.map (Element.node .value)) := by
  rw [Value.elementTrees_eq]
  exact gathered_trees h .value (fun _ => rfl) elements

theorem gathered_fieldTrees (fields : List (Element Span (ObjectField Span))) :
    f (.list (Value.fieldTrees fields)) = gathered f (fields.map (Element.node .objectField)) := by
  rw [Value.fieldTrees_eq]
  exact gathered_trees h .objectField (fun _ => rfl) fields

theorem gathered_members (members : List (NamedType Span)) :
    f (.list (members.map NamedType.tree)) =
      gathered f (members.map fun t => .type (.named t)) := by
  rw [h.list, gathered, List.flatMap_map, List.flatMap_map]
  rfl

theorem gathered_fields (es : List (Element Span (Field Span))) :
    f (Element.trees Field.tree es) = gathered f (es.map (Element.node .field)) :=
  gathered_trees h .field (fun _ => rfl) es

theorem gathered_inputs (es : List (Element Span (InputValue Span))) :
    f (Element.trees InputValue.tree es) = gathered f (es.map (Element.node .inputValue)) :=
  gathered_trees h .inputValue (fun _ => rfl) es

/-- The parts of a map and the children of its node are the same, but for their order. -/
theorem gathered_type_perm (t : TypeRef Span) :
    (f t.tree).Perm (own ofNode ofNumber (.type t) ++ gathered f (Node.type t).children) := by
  cases t <;>
    simp [TypeRef.tree, NamedType.tree, children, parts, TypeRef.parts, kind, loc, TypeRef.kind,
      TypeRef.loc, List.filterMap_cons, tree, own, numeral?, h.node]

theorem gathered_value_perm (v : Value Span) :
    (f v.tree).Perm (own ofNode ofNumber (.value v) ++ gathered f (Node.value v).children) := by
  cases v with
  | list loc elements =>
    simp [Value.tree, children, parts, Value.parts, kind, Node.loc, Value.kind, Value.loc,
      List.filterMap_cons, own, numeral?, h.node, gathered_elementTrees h]
  | object loc fields =>
    simp [Value.tree, children, parts, Value.parts, kind, Node.loc, Value.kind, Value.loc,
      List.filterMap_cons, own, numeral?, h.node, gathered_fieldTrees h]
  | _ =>
    simp [Value.tree, children, parts, Value.parts, kind, Node.loc, Value.kind, Value.loc,
      List.filterMap_cons, own, numeral?, tree, h.node, h.number, h.text, h.boolean]

theorem gathered_definition_perm (d : Definition Span) :
    (f d.tree).Perm
      (own ofNode ofNumber (.definition d) ++ gathered f (Node.definition d).children) := by
  cases d with
  | object o =>
    have hinterfaces : f (Element.trees NamedType.tree o.interfaces) =
        gathered f (o.interfaces.map (Element.node fun t => .type (.named t))) :=
      gathered_trees h (fun t => .type (.named t)) (fun _ => rfl) o.interfaces
    have hperm (xs ys zs : List β) : (xs ++ (ys ++ zs)).Perm (zs ++ (ys ++ xs)) :=
      calc (xs ++ (ys ++ zs)).Perm (xs ++ (zs ++ ys)) := List.perm_append_comm.append_left xs
        List.Perm _ (zs ++ (xs ++ ys)) := List.perm_append_comm_assoc xs zs ys
        List.Perm _ (zs ++ (ys ++ xs)) := List.perm_append_comm.append_left zs
    simpa [Definition.tree, ObjectType.tree, children, parts, Definition.parts, ObjectType.parts,
      kind, loc, Definition.kind, Definition.loc, List.filterMap_cons, own, numeral?, tree, h.node,
      gathered_fields h, hinterfaces, List.perm_append_left_iff] using hperm _ _ _
  | interface loc name fields =>
    simpa [Definition.tree, children, parts, Definition.parts, kind, Node.loc, Definition.kind,
      Definition.loc, List.filterMap_cons, own, numeral?, tree, h.node, gathered_fields h,
      List.perm_append_left_iff] using List.perm_append_comm
  | union loc name members =>
    simp [Definition.tree, children, parts, Definition.parts, kind, Node.loc, Definition.kind,
      Definition.loc, List.filterMap_cons, own, numeral?, tree, h.node, gathered_members h]
  | scalar loc name =>
    simp [Definition.tree, children, parts, Definition.parts, kind, Node.loc, Definition.kind,
      Definition.loc, List.filterMap_cons, own, numeral?, tree, h.node]
  | enum loc name members =>
    have hmembers : f (Element.trees EnumMember.tree members) =
        gathered f (members.map (Element.node .enumMember)) :=
      gathered_trees h .enumMember (fun _ => rfl) members
    simp [Definition.tree, children, parts, Definition.parts, kind, Node.loc, Definition.kind,
      Definition.loc, List.filterMap_cons, own, numeral?, tree, h.node, hmembers]
  | input loc name fields =>
    simpa [Definition.tree, children, parts, Definition.parts, kind, Node.loc, Definition.kind,
      Definition.loc, List.filterMap_cons, own, numeral?, tree, h.node, gathered_inputs h,
      List.perm_append_left_iff] using List.perm_append_comm
  | extension loc o =>
    simp [Definition.tree, children, parts, Definition.parts, kind, Node.loc, Definition.kind,
      Definition.loc, List.filterMap_cons, own, numeral?, tree, h.node]

theorem gathered_tree_perm_children (n : Node Span) :
    (f n.tree).Perm (own ofNode ofNumber n ++ gathered f n.children) := by
  cases n with
  | document d =>
    have hdefinitions : f (Element.trees Definition.tree d.definitions) =
        gathered f (d.definitions.map (Element.node .definition)) :=
      gathered_trees h .definition (fun _ => rfl) d.definitions
    simp [tree, Document.tree, children, parts, kind, loc, own, numeral?, h.node, hdefinitions]
  | comment c =>
    simp [tree, Comment.tree, children, parts, kind, loc, own, numeral?, h.node, h.text,
      List.filterMap_cons]
  | name m =>
    simp [tree, Name.tree, children, parts, kind, loc, own, numeral?, h.node, h.text,
      List.filterMap_cons]
  | type t => exact gathered_type_perm h t
  | definition d => exact gathered_definition_perm h d
  | enumMember m =>
    simp [tree, EnumMember.tree, children, parts, kind, loc, own, numeral?, h.node]
  | inputValue i =>
    cases hdefault : i.default with
    | none =>
      simp [tree, InputValue.tree, children, parts, InputValue.parts, Value.defaultParts, kind, loc,
        own, numeral?, h.node, h.null, hdefault, List.filterMap_cons]
    | some v =>
      have hperm : (f v.tree ++ (f i.name.tree ++ f i.type.tree)).Perm
          ((f i.name.tree ++ f i.type.tree) ++ f v.tree) := List.perm_append_comm
      simpa [tree, InputValue.tree, children, parts, InputValue.parts, Value.defaultParts, kind,
        loc, own, numeral?, h.node, hdefault, List.filterMap_cons, List.perm_append_left_iff]
        using hperm
  | field field =>
    cases harguments : field.arguments with
    | none =>
      simp [tree, Field.tree, children, parts, Field.parts, Field.argumentParts, kind, loc, own,
        numeral?, h.node, h.null, harguments, List.filterMap_cons]
    | some arguments =>
      simpa [tree, Field.tree, children, parts, Field.parts, Field.argumentParts, kind, loc, own,
        numeral?, h.node, harguments, List.filterMap_cons, gathered_inputs h,
        List.perm_append_left_iff] using List.perm_append_comm_assoc _ _ _
  | value v => exact gathered_value_perm h v
  | objectField field =>
    cases field
    simp [tree, ObjectField.tree, children, parts, ObjectField.parts, kind, loc, ObjectField.loc,
      own, numeral?, h.node, List.filterMap_cons]

/-- In the data of a node one finds what each node of the walk has. -/
theorem gathered_tree_perm (n : Node Span) :
    (f n.tree).Perm (n.walk.flatMap (own ofNode ofNumber)) := by
  induction n using children_induction with
  | h n ih =>
    have hchildren : (gathered f n.children).Perm
        ((n.children.flatMap walk).flatMap (own ofNode ofNumber)) := by
      rw [gathered, List.flatMap_assoc]
      exact List.Perm.flatMap_left _ ih
    rw [walk_eq, List.flatMap_append, List.flatMap_singleton]
    exact (gathered_tree_perm_children h n).trans
      ((hchildren.append_left _).trans List.perm_append_comm)

end Gathers

end Node

end SchemaDoc
