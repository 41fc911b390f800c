import SchemaDoc.Proofs.Layout.Spelling
import SchemaDoc.Proofs.Layout.Written

/-! # Tokens in their places

A reading of a text is the sequence of its tokens, each with the offset where it
starts. A tree is placed on such a sequence when every node has a block of it,
the blocks of the children following each other within the block of their parent,
and is annotated with the span from its first token to its last. Being written
in a text and being placed on a reading of it are the same.
-/

namespace SchemaDoc.Grammar

variable {L : Type} {k : Constancy} {g : Span → L} {ps : List (Part L)} {c d e m : Cursor}
  {t : Token}

/-- A token and the offset of its first byte. -/
structure Placed where
  start : Nat
  token : Token

namespace Placed

/-- The offset behind the token, where trivia at the end of a comment does not count. -/
def stop (p : Placed) : Nat := p.start + p.token.trimmed.length

/-- The span from the first of the tokens to the last. -/
def hull : List Placed → Option Span
  | [] => none
  | p :: ps => some ⟨p.start, (ps.getLastD p).stop⟩

end Placed

/-- The tokens are read one after the other from `c` to `d`, up to trivia at both ends. -/
inductive Reading : Cursor → List Placed → Cursor → Prop where
  | nil {c d : Cursor} : c.skipTrivia = d.skipTrivia → Reading c [] d
  | cons {t : Token} {c m d : Cursor} {ps : List Placed} :
      t.Reads c m → Reading m ps d → Reading c (⟨c.skipTrivia.offset, t⟩ :: ps) d

namespace Reading

variable {p : Placed} {qs rs : List Placed}

theorem congr_left (h : Reading c qs d) (hc : c.skipTrivia = e.skipTrivia) : Reading e qs d := by
  cases h with
  | nil h => exact .nil (hc.symm.trans h)
  | cons ht h =>
    rw [hc]
    exact .cons (ht.congr hc) h

theorem append (h : Reading c qs m) (h' : Reading m rs d) : Reading c (qs ++ rs) d := by
  induction h with
  | nil h => exact h'.congr_left h.symm
  | cons ht _ ih => exact .cons ht (ih h')

theorem append_iff : Reading c (qs ++ rs) d ↔ ∃ m, Reading c qs m ∧ Reading m rs d := by
  constructor
  · intro h
    induction qs generalizing c with
    | nil => exact ⟨c, .nil rfl, h⟩
    | cons q qs ih =>
      cases h with
      | cons ht h =>
        obtain ⟨m, hm, h⟩ := ih h
        exact ⟨m, .cons ht hm, h⟩
  · rintro ⟨m, h, h'⟩
    exact h.append h'

theorem reaches (h : Reading c qs d) : c.skipTrivia.Reaches d.skipTrivia := by
  induction h with
  | nil h =>
    rw [h]
    exact .refl _
  | cons ht _ ih => exact (Cursor.Reaches.trans ⟨_, ht.1⟩ (Cursor.reaches_skipTrivia _)).trans ih

theorem exists_text (h : Reading c (p :: qs) d) :
    ∃ b s, c.skipTrivia.rest = b :: s ++ d.skipTrivia.rest ∧ IsPlain b ∧
      d.skipTrivia.offset = c.skipTrivia.offset + (b :: s).length := by
  cases h with
  | cons ht h =>
    obtain ⟨b, s, htext, hb⟩ := ht.2.exists_first
    obtain ⟨w, hw, ho⟩ := (Cursor.reaches_skipTrivia _).trans h.reaches
    refine ⟨b, s ++ w, ?_, hb, ?_⟩
    · rw [ht.1.1, htext, hw]
      simp
    · rw [ho, ht.1.2, htext, List.length_cons, List.length_cons, List.length_append]
      omega

end Reading

theorem Token.Reads.reading (h : t.Reads c d) : Reading c [⟨c.skipTrivia.offset, t⟩] d :=
  .cons h (.nil rfl)

theorem Token.Reads.spanTo_eq (h : t.Reads c d) :
    c.spanTo d = ⟨c.skipTrivia.offset, (Placed.mk c.skipTrivia.offset t).stop⟩ := by
  rw [Cursor.spanTo_eq h.1.1 h.1.2, h.2.trimRight_text, Placed.stop]

/-- The span over a token and further ones ends where the span over these ends. -/
theorem Token.Reads.spanTo_trans {p : Placed} {ps : List Placed} (ht : t.Reads c m)
    (h : Reading m (p :: ps) d) : c.spanTo d = ⟨c.skipTrivia.offset, (m.spanTo d).stop⟩ := by
  obtain ⟨b, s, hrest, hb, hoffset⟩ := h.exists_text
  obtain ⟨gap, -, hgap, hm⟩ := m.exists_gap_skipTrivia
  have hfrom : m.spanTo d =
      ⟨m.skipTrivia.offset, m.skipTrivia.offset + (trimRight (b :: s)).length⟩ := by
    rw [← Cursor.spanTo_eq hrest hoffset]
    exact Cursor.spanTo_congr_right (by simp) m
  have hall : c.skipTrivia.rest = (t.text ++ gap) ++ b :: s ++ d.skipTrivia.rest := by
    rw [ht.1.1, hgap, hrest]
    simp
  have hto : d.skipTrivia.offset =
      c.skipTrivia.offset + ((t.text ++ gap) ++ b :: s).length := by
    rw [hoffset, hm, ht.1.2]
    simp only [List.length_append]
    omega
  rw [Cursor.spanTo_congr_right (show d.skipTrivia = d.skipTrivia.skipTrivia by simp) c,
    Cursor.spanTo_eq hall hto, trimRight_append_cons hb.1 hb.2, hfrom, hm, ht.1.2]
  simp only [List.length_append, Span.mk.injEq, true_and]
  omega

theorem Reading.hull_eq {p : Placed} {qs : List Placed} (h : Reading c (p :: qs) d) :
    Placed.hull (p :: qs) = some (c.spanTo d) := by
  induction qs generalizing c p with
  | nil =>
    cases h with
    | cons ht h =>
      cases h with
      | nil h =>
        rw [Cursor.spanTo_congr_right h.symm, ht.spanTo_eq]
        rfl
  | cons q qs ih =>
    cases h with
    | cons ht h =>
      rw [ht.spanTo_trans h, ← (Option.some.inj (ih h)), Placed.hull, List.getLastD_cons]

/-- Every node of the parts has its block of the tokens and is annotated with its span. -/
inductive Placement (g : Span → L) : List (Part L) → List Placed → Prop where
  | nil : Placement g [] []
  | token {t : Token} {o : Nat} {ps : List (Part L)} {qs : List Placed} :
      Placement g ps qs → Placement g (.token t :: ps) (⟨o, t⟩ :: qs)
  | omitted {t : Token} {ps : List (Part L)} {qs : List Placed} :
      Placement g ps qs → Placement g (.optional t :: ps) qs
  | kept {t : Token} {o : Nat} {ps : List (Part L)} {qs : List Placed} :
      Placement g ps qs → Placement g (.optional t :: ps) (⟨o, t⟩ :: qs)
  | node {n : Node L} {s : Span} {ps : List (Part L)} {us qs : List Placed} :
      Placed.hull us = some s → n.loc = g s → Placement g n.parts us → Placement g ps qs →
        Placement g (.node n :: ps) (us ++ qs)

theorem Placement.spells {qs : List Placed} (h : Placement g ps qs) :
    Spells ps (qs.map Placed.token) := by
  induction h with
  | nil => exact .nil
  | token _ ih => exact .token ih
  | omitted _ ih => exact .omitted ih
  | kept _ ih => exact .kept ih
  | node _ _ _ _ ihn ih =>
    rw [List.map_append]
    exact .node ihn ih

theorem Written.exists_placement (h : Written k g ps c d) (hps : ∀ p ∈ ps, p.Proper) :
    ∃ qs, Placement g ps qs ∧ Reading c qs d := by
  induction h with
  | nil h => exact ⟨[], .nil, .nil h⟩
  | token ht _ ih =>
    obtain ⟨qs, hqs, hr⟩ := ih (List.forall_mem_cons.mp hps).2
    exact ⟨_, .token hqs, .cons ht hr⟩
  | omitted _ ih =>
    obtain ⟨qs, hqs, hr⟩ := ih (List.forall_mem_cons.mp hps).2
    exact ⟨qs, .omitted hqs, hr⟩
  | kept ht _ ih =>
    obtain ⟨qs, hqs, hr⟩ := ih (List.forall_mem_cons.mp hps).2
    exact ⟨_, .kept hqs, .cons ht hr⟩
  | @node n _ c m _ hn hloc _ _ ihn ih =>
    obtain ⟨hnode, hrest⟩ := List.forall_mem_cons.mp hps
    obtain ⟨us, hus, hru⟩ := ihn (Node.parts_proper hn)
    obtain ⟨qs, hqs, hr⟩ := ih hrest
    have hne : us ≠ [] := by
      have := Node.Spells.ne_nil hus.spells hnode
      simpa using this
    obtain ⟨u, us, rfl⟩ := List.exists_cons_of_ne_nil hne
    exact ⟨_, .node hru.hull_eq hloc hus hqs, hru.append hr⟩

theorem Written.length_lt {n : Node L} (h : Written k g [.node n] c d) (hn : ¬ n.IsDocument) :
    d.skipTrivia.rest.length < c.skipTrivia.rest.length := by
  obtain ⟨qs, hqs, hr⟩ := h.exists_placement (List.forall_mem_singleton.mpr hn)
  cases hqs with
  | @node _ _ _ us _ hhull _ _ _ =>
    cases us with
    | nil => simp [Placed.hull] at hhull
    | cons u us =>
      obtain ⟨b, s, hs, -, -⟩ := hr.exists_text
      rw [hs, List.length_append, List.length_cons]
      omega

theorem Placement.written {qs : List Placed} (h : Placement g ps qs)
    (hps : ∀ n ∈ ps.flatMap Part.walk, n.Admissible k) (hr : Reading c qs d) :
    Written k g ps c d := by
  induction h generalizing c d with
  | nil =>
    cases hr with
    | nil h => exact .nil h
  | token _ ih =>
    cases hr with
    | cons ht h => exact .token ht (ih (by simpa [Part.walk] using hps) h)
  | omitted _ ih => exact .omitted (ih (by simpa [Part.walk] using hps) hr)
  | kept _ ih =>
    cases hr with
    | cons ht h => exact .kept ht (ih (by simpa [Part.walk] using hps) h)
  | @node n s ps us qs hhull hloc _ _ ihn ih =>
    obtain ⟨m, hru, hr⟩ := Reading.append_iff.mp hr
    rw [List.flatMap_cons] at hps
    obtain ⟨hwalk, hrest⟩ := List.forall_mem_append.mp hps
    rw [Part.walk, Node.walk_eq_parts] at hwalk
    obtain ⟨hparts, hself⟩ := List.forall_mem_append.mp hwalk
    have hspan : s = c.spanTo m := by
      cases us with
      | nil => simp [Placed.hull] at hhull
      | cons u us => exact Option.some.inj (hhull.symm.trans hru.hull_eq)
    exact .node (hself n (by simp)) (by rw [hloc, hspan]) (ihn hparts hru) (ih hrest hr)

/-- Without locations a tree is placed on every token sequence that spells it. -/
theorem Placement.of_spells {ps : List (Part Unit)} {qs : List Placed} {ts : List Token}
    (h : Spells ps ts) (hqs : qs.map Placed.token = ts) (hps : ∀ p ∈ ps, p.Proper)
    (hwalk : ∀ n ∈ ps.flatMap Part.walk, n.Admissible k) :
    Placement (fun _ => ()) ps qs := by
  induction h generalizing qs with
  | nil =>
    rw [List.map_eq_nil_iff.mp hqs]
    exact .nil
  | token _ ih =>
    obtain ⟨q, qs, rfl, rfl, hrest⟩ := List.map_eq_cons_iff.mp hqs
    exact .token (ih hrest (List.forall_mem_cons.mp hps).2 (by simpa [Part.walk] using hwalk))
  | omitted _ ih =>
    exact .omitted (ih hqs (List.forall_mem_cons.mp hps).2 (by simpa [Part.walk] using hwalk))
  | kept _ ih =>
    obtain ⟨q, qs, rfl, rfl, hrest⟩ := List.map_eq_cons_iff.mp hqs
    exact .kept (ih hrest (List.forall_mem_cons.mp hps).2 (by simpa [Part.walk] using hwalk))
  | @node n ps us ts hn _ ihn ih =>
    obtain ⟨qs, rs, rfl, hus, hrs⟩ := List.map_eq_append_iff.mp hqs
    obtain ⟨hnode, hrest⟩ := List.forall_mem_cons.mp hps
    rw [List.flatMap_cons] at hwalk
    obtain ⟨hself, htail⟩ := List.forall_mem_append.mp hwalk
    rw [Part.walk] at hself
    have hparts := Node.parts_proper (hself n n.self_mem_walk)
    rw [Node.walk_eq_parts] at hself
    cases qs with
    | nil => exact absurd hus.symm (Node.Spells.ne_nil hn hnode)
    | cons q qs =>
      exact .node rfl rfl (ihn hus hparts (List.forall_mem_append.mp hself).1)
        (ih hrs hrest htail)

end SchemaDoc.Grammar
