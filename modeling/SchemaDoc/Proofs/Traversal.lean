import SchemaDoc.Proofs.Spans
import SchemaDoc.Proofs.Tree.Tags

/-! # The walk over a parsed document

A walk over the tree of a text comes to every node once and to each behind all
nodes beneath it, so the ends of the nodes never go back in the text. The data of
the tree is made by another recursion, which goes over the same nodes.
-/

namespace SchemaDoc

open Grammar

namespace Grammar

variable {body : Bytes} {qs us : List Placed} {ps : List (Part Span)}

/-- The nodes among the parts, and those beneath them, end with tokens of theirs. -/
theorem Placement.exists_stop (h : Placement id ps qs) {n : Node Span}
    (hn : n ∈ ps.flatMap Part.walk) : ∃ q ∈ qs, n.loc.stop = q.stop := by
  obtain ⟨us, s, hsub, -, hhull, hloc⟩ := h.exists_block hn
  obtain ⟨p, -, q, hq, rfl⟩ := Placed.exists_of_hull hhull
  exact ⟨q, hsub.subset hq, by rw [hloc]; rfl⟩

/-- A walk over the parts goes forward in the text. -/
theorem Placement.pairwise_stop (h : Placement id ps qs) (hstand : Standing body qs) :
    (ps.flatMap Part.walk).Pairwise fun a b => a.loc.stop ≤ b.loc.stop := by
  induction h with
  | nil => exact .nil
  | token _ ih => exact ih (hstand.sublist (List.sublist_cons_self _ _))
  | omitted _ ih => exact ih hstand
  | kept _ ih => exact ih (hstand.sublist (List.sublist_cons_self _ _))
  | @node n s ps us qs hhull hloc hparts hps ihn ih =>
    have hus := hstand.sublist (List.sublist_append_left us qs)
    have hqs := hstand.sublist (List.sublist_append_right us qs)
    have hself : n.loc.stop = s.stop := by rw [hloc]; rfl
    have hnode : ∀ a ∈ n.parts.flatMap Part.walk ++ [n], ∃ q ∈ us, a.loc.stop = q.stop := by
      intro a ha
      rcases List.mem_append.mp ha with ha | ha
      · exact hparts.exists_stop ha
      · obtain ⟨p, -, q, hq, rfl⟩ := Placed.exists_of_hull hhull
        exact ⟨q, hq, by rw [List.mem_singleton.mp ha, hself]⟩
    rw [List.flatMap_cons, Part.walk, Node.walk_eq_parts]
    refine List.pairwise_append.mpr ⟨?_, ih hqs, fun a ha b hb => ?_⟩
    · refine List.pairwise_append.mpr ⟨ihn hus, List.pairwise_singleton _ _, fun a ha b hb => ?_⟩
      obtain ⟨q, hq, hstop⟩ := hparts.exists_stop ha
      rw [List.mem_singleton.mp hb, hstop, hself]
      exact (hus.hull_covers hhull hq).2
    · obtain ⟨p, hp, ha⟩ := hnode a ha
      obtain ⟨q, hq, hb⟩ := hps.exists_stop hb
      have hbetween := (List.pairwise_append.mp hstand.ordered).2.2 p hp q hq
      have hbounds := (hqs.bounds q hq).1
      omega

end Grammar

variable {doc : Document Span}

theorem Document.walk_pairwise_stop {body : Bytes} (h : Document.parse body = .ok doc) :
    doc.walk.Pairwise fun a b => a.loc.stop ≤ b.loc.stop := by
  obtain ⟨l, d, -, hreading, hplaced, hloc, hd⟩ := Document.exists_placement_of_parse h
  have hstand := hreading.standing hd
  change (Node.document doc).walk.Pairwise _
  cases hqs : l.placed with
  | nil =>
    -- Without tokens there is no node but the document.
    have hnone : (Node.document doc).parts.flatMap Part.walk = [] := by
      refine List.eq_nil_iff_forall_not_mem.mpr fun n hn => ?_
      obtain ⟨q, hq, -⟩ := hplaced.exists_stop hn
      rw [hqs] at hq
      nomatch hq
    rw [Node.walk_eq_parts, hnone]
    exact List.pairwise_singleton _ _
  | cons q qs =>
    rw [hqs] at hplaced hreading hstand
    have hdocument : Placement id [.node (.document doc)] (q :: qs) := by
      rw [← List.append_nil (q :: qs)]
      exact .node hreading.hull_eq hloc hplaced .nil
    simpa [Part.walk] using hdocument.pairwise_stop hstand

/-- The walk over a parsed document comes to every node once, and to none before those beneath it.
It goes forward in the text. In the data of the document there is one map with a kind for each node
of the walk, with the kind and the location of the node. -/
theorem Source.walk_of_parse {s : Source} (h : s.parse = .ok doc) :
    (∃ addresses, (Node.document doc).Visits addresses doc.walk) ∧
      (doc.walk.Pairwise fun a b => a.loc.stop ≤ b.loc.stop) ∧
      doc.tree.tags.Perm (doc.walk.map fun n => some (n.kind, n.loc)) :=
  ⟨(Node.document doc).exists_visits, Document.walk_pairwise_stop (Source.parse_eq_ok_iff.mp h),
    (Node.document doc).tags_tree_perm⟩

theorem sampleSource_walk :
    ∃ doc, sampleSource.parse = .ok doc ∧
      (∃ addresses, (Node.document doc).Visits addresses doc.walk) ∧
      (doc.walk.Pairwise fun a b => a.loc.stop ≤ b.loc.stop) ∧
      doc.tree.tags.Perm (doc.walk.map fun n => some (n.kind, n.loc)) := by
  obtain ⟨doc, h⟩ : ∃ doc, sampleSource.parse = .ok doc := ⟨_, rfl⟩
  exact ⟨doc, h, Source.walk_of_parse h⟩

end SchemaDoc
