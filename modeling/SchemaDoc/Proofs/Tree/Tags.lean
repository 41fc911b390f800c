import SchemaDoc.Proofs.Tree.Decoding
import SchemaDoc.Proofs.Tree.Gathering

/-! # The maps of a tree and its nodes

The map of a node is told by its kind. In the data of a tree there is one map with
a kind for every node that a walk comes to, with the kind and the location of the
node, wherever it stands.
-/

namespace SchemaDoc

namespace Data

/-- The kind and the location in a map, as far as they can be read. -/
def tag? (entries : List (Bytes × Data)) : Option (Kind × Span) := do
  let kind ← (entries.lookup (bytes "kind")).bind fun d => d.part.text?.bind Kind.ofLabel?
  let loc ← (entries.lookup (bytes "loc")).bind fun d => d.part.span?
  return (kind, loc)

/-- The tag of a map with an entry for its kind. -/
def ownTags (entries : List (Bytes × Data)) : List (Option (Kind × Span)) :=
  if (entries.lookup (bytes "kind")).isSome then [tag? entries] else []

mutual

/-- The tags of all maps with a kind in a piece of data, at any depth. -/
def tags : Data → List (Option (Kind × Span))
  | .list items => itemTags items
  | .map entries => ownTags entries ++ entryTags entries
  | .null => []
  | .boolean _ => []
  | .integer _ => []
  | .number _ => []
  | .text _ => []

def itemTags : List Data → List (Option (Kind × Span))
  | [] => []
  | item :: items => item.tags ++ itemTags items

def entryTags : List (Bytes × Data) → List (Option (Kind × Span))
  | [] => []
  | (_, value) :: entries => value.tags ++ entryTags entries

end

@[simp] theorem itemTags_eq (items : List Data) : itemTags items = items.flatMap tags := by
  induction items with
  | nil => rfl
  | cons item items ih => rw [itemTags, ih, List.flatMap_cons]

@[simp] theorem entryTags_eq (entries : List (Bytes × Data)) :
    entryTags entries = entries.flatMap fun e => e.2.tags := by
  induction entries with
  | nil => rfl
  | cons e entries ih => rw [entryTags, ih, List.flatMap_cons]

end Data

@[simp] theorem lookup_bytes_cons {α : Type} (key s : String) (a : α) (es : List (Bytes × α)) :
    ((bytes s, a) :: es).lookup (bytes key) = if key = s then some a else es.lookup (bytes key) := by
  rw [List.lookup_cons]
  by_cases h : key = s
  · simp [h]
  · have hne : (bytes key == bytes s) = false := by simpa [bytes_inj] using h
    simp [h, hne]

@[simp] theorem Span.tags_tree (s : Span) : s.tree.tags = [] := by
  simp [Span.tree, Data.tags, Data.ownTags, Data.nat]

@[simp] theorem tags_nodeTree (kind : Kind) (loc : Span) (parts : List (Bytes × Data)) :
    (nodeTree kind loc parts).tags = some (kind, loc) :: parts.flatMap fun e => e.2.tags := by
  simp [nodeTree, Data.tags, Data.ownTags, Data.tag?, Data.part, TreePart.text?, TreePart.span?]

theorem Data.gathers_tags : Data.Gathers tags (fun kind loc => [some (kind, loc)]) fun _ => [] where
  null := rfl
  boolean _ := rfl
  number _ := rfl
  text _ := rfl
  list := itemTags_eq
  node := tags_nodeTree

/-- In the data of a node there is one map with a kind for each node of the walk. -/
theorem Node.tags_tree_perm (n : Node Span) :
    n.tree.tags.Perm (n.walk.map fun m => some (m.kind, m.loc)) := by
  have hown (m : Node Span) :
      own (fun kind loc => [some (kind, loc)]) (fun _ => []) m = [some (m.kind, m.loc)] := by
    rw [own]
    cases m.numeral? <;> rfl
  rw [List.map_eq_flatMap, ← funext hown]
  exact gathered_tree_perm Data.gathers_tags n

end SchemaDoc
