import SchemaDoc.Proofs.Soundness.Document
import SchemaDoc.Tree

/-! # What a parsed document never holds

The tree of a text that parses is well-formed at every depth: each name, number,
string and comment in it is spelled as the grammar allows it in that place, and
no variable occurs. That every list of elements is there, if empty, is a matter of
its type: of any document, parsed or not, only default values and argument lists
can be null in the data.
-/

namespace SchemaDoc

open Grammar

variable {L : Type} {n : Node L} {body : Bytes} {doc : Document Span}

theorem Document.admissible_of_parse (h : Document.parse body = .ok doc) :
    ∀ n ∈ doc.walk, n.Admissible .constant := by
  obtain ⟨d, hwritten, -, -⟩ := Document.written_of_parse h
  intro n hn
  change n ∈ (Node.document doc).walk at hn
  rw [Node.walk_eq_parts] at hn
  rcases List.mem_append.mp hn with hn | hn
  · exact hwritten.admissible n hn
  · rw [List.mem_singleton.mp hn]
    trivial

theorem Document.proper_of_parse {ts : List Token} (h : Document.parse body = .ok doc)
    (hspells : doc.Spells ts) : ∀ t ∈ ts, t.Proper := by
  have hwalk := Document.admissible_of_parse h
  change ∀ n ∈ (Node.document doc).walk, n.Admissible .constant at hwalk
  rw [Node.walk_eq_parts] at hwalk
  exact SchemaDoc.Spells.proper hspells (Node.parts_proper (k := .constant) trivial)
    (List.forall_mem_append.mp hwalk).1

/-- Variables are admissible only where values need not be constant. -/
theorem Node.Admissible.kind_ne_variable (h : n.Admissible .constant) : n.kind ≠ .variable := by
  cases n with
  | type t => cases t <;> simp [kind, TypeRef.kind]
  | definition d => cases d <;> simp [kind, Definition.kind]
  | value v =>
    cases v with
    | «variable» loc name => exact absurd h.1 (by decide)
    | _ => simp [kind, Value.kind]
  | _ => simp [kind]

/-- The part of the node under the key may be missing: the default value of an input value, or the
argument list of a field. -/
def Node.MayLack (n : Node L) (key : Bytes) : Prop :=
  n.kind = .inputValueDefinition ∧ key = bytes "defaultValue" ∨
    n.kind = .fieldDefinition ∧ key = bytes "arguments"

@[simp] private theorem Name.null_ne_tree (n : Name Span) : Data.null ≠ n.tree := nofun

@[simp] private theorem NamedType.null_ne_tree (t : NamedType Span) : Data.null ≠ t.tree := nofun

@[simp] private theorem ObjectType.null_ne_tree (o : ObjectType Span) : Data.null ≠ o.tree := nofun

@[simp] private theorem TypeRef.null_ne_tree (t : TypeRef Span) : Data.null ≠ t.tree := by
  cases t <;> simp [TypeRef.tree, nodeTree]

@[simp] private theorem Value.null_ne_tree (v : Value Span) : Data.null ≠ v.tree := by
  cases v <;> simp [Value.tree, nodeTree]

@[simp] private theorem Element.null_ne_trees {α : Type} (f : α → Data)
    (elements : List (Element Span α)) : Data.null ≠ Element.trees f elements := nofun

/-- What is null in the data of a node is a part that may be missing. -/
theorem Node.mayLack_of_tree (n : Node Span) {entries : List (Bytes × Data)}
    (h : n.tree = .map entries) {key : Bytes} (hkey : (key, Data.null) ∈ entries) :
    n.MayLack key := by
  have hparts : ∃ parts, n.tree = nodeTree n.kind n.loc parts ∧
      ((key, Data.null) ∈ parts → n.MayLack key) := by
    cases n with
    | document d => exact ⟨_, rfl, by simp⟩
    | comment c => exact ⟨_, rfl, by simp⟩
    | name m => exact ⟨_, rfl, by simp⟩
    | type t => cases t <;> exact ⟨_, rfl, by simp⟩
    | definition d => cases d <;> exact ⟨_, rfl, by simp⟩
    | enumMember m => exact ⟨_, rfl, by simp⟩
    | inputValue i => exact ⟨_, rfl, by simp +contextual [MayLack, kind]⟩
    | field f => exact ⟨_, rfl, by simp +contextual [MayLack, kind]⟩
    | value v => cases v <;> exact ⟨_, rfl, by simp⟩
    | objectField f =>
      cases f
      exact ⟨_, rfl, by simp⟩
  obtain ⟨parts, htree, hlack⟩ := hparts
  obtain rfl := Data.map.inj (htree.symm.trans h)
  exact hlack (by simpa [Span.tree] using hkey)

/-- At every depth of a parsed document the nodes are spelled as they must be in their place and
none is a variable. The last clause does not rest on the parsing: the type of the lists carries it
for every document, as `mayLack_of_tree` says. -/
theorem Source.wellFormed_of_parse {s : Source} (h : s.parse = .ok doc) :
    doc.WellFormed ∧ ∀ n ∈ doc.walk, n.kind ≠ .variable ∧
      ∀ entries, n.tree = .map entries → ∀ key, (key, Data.null) ∈ entries → n.MayLack key := by
  have hwalk := Document.admissible_of_parse (Source.parse_eq_ok_iff.mp h)
  refine ⟨hwalk, fun n hn => ⟨(hwalk n hn).kind_ne_variable, ?_⟩⟩
  intro entries htree key hkey
  exact n.mayLack_of_tree htree hkey

theorem sampleSource_wellFormed :
    ∃ doc, sampleSource.parse = .ok doc ∧ doc.WellFormed ∧ ∀ n ∈ doc.walk, n.kind ≠ .variable ∧
      ∀ entries, n.tree = .map entries → ∀ key, (key, Data.null) ∈ entries → n.MayLack key := by
  obtain ⟨doc, h⟩ : ∃ doc, sampleSource.parse = .ok doc := ⟨_, rfl⟩
  exact ⟨doc, h, Source.wellFormed_of_parse h⟩

end SchemaDoc
