import SchemaDoc.Output
import SchemaDoc.Proofs.Soundness.WellFormed
import SchemaDoc.Proofs.Tree.Decoding
import SchemaDoc.Proofs.Tree.Shape
import SchemaDoc.Proofs.Yaml.Nesting

/-! # The YAML of a parsed document

No text in a parsed document has several lines, so the data of its nodes is
legible. Its YAML determines the data, as a whole and node by node.
-/

namespace SchemaDoc

open Grammar

namespace Yaml

theorem isBareKey_keys (k : Kind) : ∀ key ∈ k.keys, IsBareKey key ∧ isOffset key = false := by
  cases k <;> decide +kernel

theorem legible_span (s : Span) : Legible false s.tree := by
  apply Legible.map (List.cons_ne_nil _ _)
  · simp only [List.forall_mem_cons]
    exact ⟨by decide +kernel, by decide +kernel, nofun⟩
  · change [bytes "end", bytes "start"].Nodup
    decide
  · simp only [List.forall_mem_cons]
    exact ⟨.integer _, .integer _, nofun⟩

theorem line_notMem_label (k : Kind) : 0x0A ∉ k.label := by
  cases k <;> decide

theorem legible_nodeTree {kind : Kind} {loc : Span} {parts : List (Bytes × Data)}
    (hparts : parts.map Prod.fst = kind.partKeys) (h : ∀ e ∈ parts, Legible false e.2) :
    Legible false (nodeTree kind loc parts) := by
  have hkeys := Kind.keys_eq loc hparts
  have hkey : ∀ e ∈ (bytes "kind", .text kind.label) :: (bytes "loc", loc.tree) :: parts,
      IsBareKey e.1 ∧ isOffset e.1 = false := by
    intro e he
    apply isBareKey_keys kind
    rw [← hkeys]
    exact List.mem_map_of_mem he
  refine .map (List.cons_ne_nil _ _) (fun e he => (hkey e he).1) (hkeys ▸ kind.nodup_keys)
    fun e he => ?_
  rw [(hkey e he).2]
  simp only [List.mem_cons] at he
  rcases he with rfl | rfl | he
  · exact .leaf (.text (line_notMem_label kind))
  · exact legible_span loc
  · exact h e he

theorem isNested_tree (n : Node Span) : isNested n.tree = true := by
  obtain ⟨parts, htree, -⟩ := n.exists_parts
  rw [htree]
  rfl

theorem inherited_legible : Data.Inherited (Legible false) where
  null := .leaf (.word .null)
  boolean b := by
    cases b with
    | false => exact .leaf (.word .no)
    | true => exact .leaf (.word .yes)
  number x := .leaf (.word (.number x))
  list ms h := by
    cases ms with
    | nil => exact .leaf (.word .nothing)
    | cons m ms =>
      refine .list (List.cons_ne_nil _ _) ?_ ?_
      · exact List.forall_mem_map.mpr fun m _ => isNested_tree m
      · exact List.forall_mem_map.mpr h
  node _ _ _ := legible_nodeTree

end Yaml

theorem Grammar.IsIdentifier.line_notMem {s : Bytes} (h : IsIdentifier s) : 0x0A ∉ s := by
  cases s with
  | nil => exact List.not_mem_nil
  | cons b s =>
    rw [List.mem_cons, not_or]
    refine ⟨?_, fun hmem => nomatch h.2 _ hmem⟩
    rintro rfl
    nomatch h.1

theorem Grammar.IsComment.line_notMem {s : Bytes} (h : IsComment s) : 0x0A ∉ s := by
  obtain ⟨s, rfl, hs⟩ := h
  rw [List.mem_cons, not_or]
  exact ⟨by decide, fun hmem => nomatch hs _ hmem⟩

theorem Node.Admissible.line_notMem {n : Node Span} {k : Constancy} {s : Bytes}
    (h : n.Admissible k) (hs : n.text? = some s) : 0x0A ∉ s := by
  unfold Node.text? at hs
  split at hs <;> cases hs
  · exact Grammar.IsComment.line_notMem h
  · exact Grammar.IsIdentifier.line_notMem h
  · exact fun hmem => absurd (h _ hmem) (by decide)

/-- Trees are equal when their data is, but for the order of entries. -/
theorem Node.tree_eq_of_sorted {n m : Node Span} (h : n.tree.sorted = m.tree.sorted) :
    n.tree = m.tree := by
  have hpart (n : Node Span) : ∃ n' : Node Span, n.tree.part = .node n' ∧ n'.tree = n.tree := by
    cases n with
    | document d => exact ⟨.document d.rounded, d.part_tree, d.tree_rounded⟩
    | comment c => exact ⟨_, c.part_tree, rfl⟩
    | name n => exact ⟨_, n.part_tree, rfl⟩
    | type t => exact ⟨_, t.part_tree, rfl⟩
    | definition d => exact ⟨_, d.part_tree, d.tree_rounded⟩
    | enumMember m => exact ⟨_, m.part_tree, rfl⟩
    | inputValue i => exact ⟨_, i.part_tree, i.tree_rounded⟩
    | field f => exact ⟨_, f.part_tree, f.tree_rounded⟩
    | value v => exact ⟨_, v.part_tree, v.tree_rounded⟩
    | objectField f => exact ⟨_, f.part_tree, f.tree_rounded⟩
  obtain ⟨n', hn, hn'⟩ := hpart n
  obtain ⟨m', hm, hm'⟩ := hpart m
  have hsame : TreePart.node n' = TreePart.node m' := by
    rw [← hn, ← hm, ← Data.part_sorted, h, Data.part_sorted]
  rw [← hn', ← hm', TreePart.node.inj hsame]

variable {s s' : Source} {doc doc' : Document Span}

theorem Source.line_notMem_of_parse (h : s.parse = .ok doc) {n : Node Span} (hn : n ∈ doc.walk)
    {t : Bytes} (ht : n.text? = some t) : 0x0A ∉ t :=
  (Document.admissible_of_parse (Source.parse_eq_ok_iff.mp h) n hn).line_notMem ht

/-- The data of every node of a parsed document is legible. -/
theorem Source.legible_of_parse (h : s.parse = .ok doc) {n : Node Span} (hn : n ∈ doc.walk) :
    Yaml.Legible false n.tree :=
  n.inherited_tree Yaml.inherited_legible fun _ hm _ ht =>
    .leaf (.text (Source.line_notMem_of_parse h (Node.mem_walk_trans (n := .document doc) hn hm) ht))

/-- The YAML of a node is told from that of any other and from what follows it. -/
theorem Source.node_append_inj (h : s.parse = .ok doc) (h' : s'.parse = .ok doc') {n m : Node Span}
    (hn : n ∈ doc.walk) (hm : m ∈ doc'.walk) {column : Nat} {r r' : Bytes}
    (hr : Yaml.Outdented column r) (hr' : Yaml.Outdented column r')
    (heq : Yaml.write column n.tree ++ r = Yaml.write column m.tree ++ r') :
    n.tree = m.tree ∧ r = r' := by
  obtain ⟨hsorted, hrest⟩ := (Source.legible_of_parse h hn).told (Source.legible_of_parse h' hm)
    (by rw [Yaml.isNested_tree, Yaml.isNested_tree]) r r' hr hr' heq
  exact ⟨Node.tree_eq_of_sorted hsorted, hrest⟩

/-- The YAML of parsed documents determines their data. At any column the YAML of a node is told from
that of all other nodes and from what follows it, as long as nothing goes on at the column. No text
of a node is written like another text of a single line or like anything else without parts,
wherever the two stand. -/
theorem Source.yaml_faithful (h : s.parse = .ok doc) (h' : s'.parse = .ok doc') :
    (doc.write (bytes "yaml") = doc'.write (bytes "yaml") → doc.tree = doc'.tree) ∧
      (∀ n ∈ doc.walk, ∀ m ∈ doc'.walk, ∀ column r r', Yaml.Outdented column r →
        Yaml.Outdented column r' → Yaml.write column n.tree ++ r = Yaml.write column m.tree ++ r' →
        n.tree = m.tree ∧ r = r') ∧
      ∀ n ∈ doc.walk, ∀ t, n.text? = some t → ∀ column column',
        (∀ d, Yaml.IsLeaf d → Yaml.write column (.text t) = Yaml.write column' d → d = .text t) ∧
          ∀ k : Int, -2 ^ 63 ≤ k → k < 2 ^ 63 →
            Yaml.write column (.text t) ≠ Yaml.write column' (.integer k) := by
  refine ⟨fun hwrite => ?_, fun n hn m hm _ _ _ => Source.node_append_inj h h' hn hm, ?_⟩
  · have hself (doc : Document Span) : .document doc ∈ doc.walk := (Node.document doc).self_mem_walk
    have htext : Yaml.write 0 doc.tree = Yaml.write 0 doc'.tree := Except.ok.inj hwrite
    have hends : Yaml.write 0 doc.tree ++ [] = Yaml.write 0 doc'.tree ++ [] := by rw [htext]
    exact (Source.node_append_inj h h' (hself doc) (hself doc') (.inl rfl) (.inl rfl) hends).1
  · intro n hn t ht column column'
    have hline := Source.line_notMem_of_parse h hn ht
    exact ⟨fun d hd heq => Yaml.write_inj_of_isLeaf hd (.text hline) heq.symm,
      fun k => Yaml.write_text_ne_integer hline⟩

/-- Strings and a name that look like something else, and a number with the look of a string. -/
def lookalikeSource : Source :=
  ⟨bytes "lookalike", bytes
    "type A \x7b a(b: C = \"true\", c: C = \"1e3\", d: C = 1e3, e: C = \"\\\"\"): no \x7d #: -"⟩

theorem lookalikeSource_yaml :
    ∃ doc doc', lookalikeSource.parse = .ok doc ∧ sampleSource.parse = .ok doc' ∧
      (doc.write (bytes "yaml") = doc'.write (bytes "yaml") → doc.tree = doc'.tree) ∧
      (∀ n ∈ doc.walk, ∀ m ∈ doc'.walk, ∀ column r r', Yaml.Outdented column r →
        Yaml.Outdented column r' → Yaml.write column n.tree ++ r = Yaml.write column m.tree ++ r' →
        n.tree = m.tree ∧ r = r') ∧
      ∀ n ∈ doc.walk, ∀ t, n.text? = some t → ∀ column column',
        (∀ d, Yaml.IsLeaf d → Yaml.write column (.text t) = Yaml.write column' d → d = .text t) ∧
          ∀ k : Int, -2 ^ 63 ≤ k → k < 2 ^ 63 →
            Yaml.write column (.text t) ≠ Yaml.write column' (.integer k) := by
  obtain ⟨doc, h⟩ : ∃ doc, lookalikeSource.parse = .ok doc := ⟨_, rfl⟩
  obtain ⟨doc', h'⟩ : ∃ doc, sampleSource.parse = .ok doc := ⟨_, rfl⟩
  exact ⟨doc, doc', h, h', Source.yaml_faithful h h'⟩

end SchemaDoc
