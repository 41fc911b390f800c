import SchemaDoc.Proofs.Soundness.Document

/-! # Spans of parsed documents

Every node of a parsed document has a block of the tokens of the text, and its
span goes from the first byte of the first of them to the end of the last. What
a reader expects of spans follows: they are within the text, they neither begin
nor end with trivia, and they are nested and ordered as the nodes are.
-/

namespace SchemaDoc.Grammar

variable {L : Type} {g : Span → L} {ps : List (Part L)} {qs us : List Placed} {c d : Cursor}
  {p q : Placed} {body : Bytes} {s : Span}

theorem Token.Reads.start_lt_stop {t : Token} (h : t.Reads c d) :
    c.skipTrivia.offset < (Placed.mk c.skipTrivia.offset t).stop ∧
      (Placed.mk c.skipTrivia.offset t).stop ≤ d.offset := by
  have hpos := List.length_pos_iff.mpr h.2.trimmed_ne_nil
  have hle := h.2.trimmed_length_le
  simp only [Placed.stop, h.1.2]
  omega

namespace Reading

theorem offset_le (h : Reading c qs d) : c.skipTrivia.offset ≤ d.skipTrivia.offset := by
  obtain ⟨w, -, ho⟩ := h.reaches
  omega

/-- The tokens lie between the ends of the reading, and none is empty. -/
theorem bounds (h : Reading c qs d) (hp : p ∈ qs) :
    c.skipTrivia.offset ≤ p.start ∧ p.start < p.stop ∧ p.stop ≤ d.skipTrivia.offset := by
  induction h with
  | nil _ => simp at hp
  | @cons t c m d qs ht h ih =>
    obtain ⟨hlt, hle⟩ := ht.start_lt_stop
    obtain ⟨w, -, hm⟩ := m.reaches_skipTrivia
    rcases List.mem_cons.mp hp with rfl | hp
    · have := h.offset_le
      exact ⟨Nat.le_refl _, hlt, by omega⟩
    · have := ih hp
      omega

theorem pairwise (h : Reading c qs d) : qs.Pairwise fun p q => p.stop ≤ q.start := by
  induction h with
  | nil _ => exact .nil
  | @cons t c m d qs ht h ih =>
    refine .cons (fun q hq => ?_) ih
    obtain ⟨w, -, hm⟩ := m.reaches_skipTrivia
    have := ht.start_lt_stop.2
    have := (h.bounds hq).1
    omega

/-- Each token stands in the text at its offset. -/
theorem text_at (h : Reading c qs d) (hc : (Cursor.ofBody body).Reaches c) (hp : p ∈ qs) :
    ∃ r, body.drop p.start = p.token.text ++ r ∧ p.token.Whole r := by
  induction h with
  | nil _ => simp at hp
  | @cons t c m d qs ht _ ih =>
    rcases List.mem_cons.mp hp with rfl | hp
    · obtain ⟨w, hw, ho⟩ := hc.trans c.reaches_skipTrivia
      refine ⟨m.rest, ?_, ht.2⟩
      change body = w ++ c.skipTrivia.rest at hw
      change c.skipTrivia.offset = 0 + w.length at ho
      simp only [ho, Nat.zero_add, hw, List.drop_left, ht.1.1]
    · exact ih (hc.trans ht.reaches) hp

end Reading

/-- The tokens stand in the text at their offsets, one behind the other. -/
structure Standing (body : Bytes) (qs : List Placed) : Prop where
  bounds : ∀ p ∈ qs, p.start < p.stop ∧ p.stop ≤ body.length
  ordered : qs.Pairwise fun p q => p.stop ≤ q.start
  text_at : ∀ p ∈ qs, ∃ r, body.drop p.start = p.token.text ++ r ∧ p.token.Whole r

theorem Reading.standing (h : Reading (.ofBody body) qs d) (hd : d.skipTrivia = ⟨body.length, []⟩) :
    Standing body qs where
  bounds p hp := by
    have := h.bounds hp
    rw [hd] at this
    exact this.2
  ordered := h.pairwise
  text_at p hp := h.text_at (.refl _) hp

namespace Standing

theorem sublist (h : Standing body qs) (hs : us.Sublist qs) : Standing body us where
  bounds p hp := h.bounds p (hs.subset hp)
  ordered := h.ordered.sublist hs
  text_at p hp := h.text_at p (hs.subset hp)

theorem start_le_start (h : Standing body (p :: qs)) (hq : q ∈ p :: qs) : p.start ≤ q.start := by
  rcases List.mem_cons.mp hq with rfl | hq
  · exact Nat.le_refl _
  · have := (List.pairwise_cons.mp h.ordered).1 q hq
    have := (h.bounds p (by simp)).1
    omega

theorem stop_le_stop (h : Standing body (p :: qs)) (hq : q ∈ p :: qs) :
    q.stop ≤ (qs.getLastD p).stop := by
  induction qs generalizing p q with
  | nil =>
    rw [List.mem_singleton.mp hq]
    exact Nat.le_refl _
  | cons r qs ih =>
    rw [List.getLastD_cons]
    have hrs := h.sublist (List.sublist_cons_self p (r :: qs))
    rcases List.mem_cons.mp hq with rfl | hq
    · have := (List.pairwise_cons.mp h.ordered).1 r (by simp)
      have := (hrs.bounds r (by simp)).1
      have := ih hrs (q := r) (by simp)
      omega
    · exact ih hrs hq

end Standing

theorem Placed.exists_of_hull (h : Placed.hull qs = some s) :
    ∃ p ∈ qs, ∃ q ∈ qs, s = ⟨p.start, q.stop⟩ := by
  cases qs with
  | nil => simp [Placed.hull] at h
  | cons p qs =>
    refine ⟨p, by simp, qs.getLastD p, ?_, (Option.some.inj h).symm⟩
    rw [← List.getLast_eq_getLastD (List.cons_ne_nil p qs)]
    exact List.getLast_mem _

namespace Standing

/-- A hull reaches over all of its tokens. -/
theorem hull_covers (h : Standing body qs) (hs : Placed.hull qs = some s) (hp : p ∈ qs) :
    s.start ≤ p.start ∧ p.stop ≤ s.stop := by
  cases qs with
  | nil => simp at hp
  | cons q qs =>
    obtain rfl := Option.some.inj hs
    exact ⟨h.start_le_start hp, h.stop_le_stop hp⟩

theorem hull_bounds (h : Standing body qs) (hs : Placed.hull qs = some s) :
    s.start < s.stop ∧ s.stop ≤ body.length := by
  obtain ⟨p, hp, q, hq, rfl⟩ := Placed.exists_of_hull hs
  have := (h.hull_covers hs hp).2
  have := h.bounds p hp
  exact ⟨by simp_all; omega, (h.bounds q hq).2⟩

theorem text_of_singleton (h : Standing body [p]) :
    (Span.mk p.start p.stop).text body = p.token.trimmed := by
  obtain ⟨r, hr, hwhole⟩ := h.text_at p (by simp)
  obtain ⟨-, gap, -, htext⟩ := trimRight_spec p.token.text
  rw [hwhole.trimRight_text] at htext
  rw [Span.text, hr, htext, List.append_assoc]
  apply List.take_left'
  simp [Placed.stop]

/-- The text of a hull is that in front of its last token and then this token. -/
theorem hull_text (h : Standing body qs) (hs : Placed.hull qs = some s) :
    ∃ u b v, s.text body = u ++ trimRight (b :: v) ∧ IsPlain b := by
  obtain ⟨p, hp, q, hq, rfl⟩ := Placed.exists_of_hull hs
  have hle : p.start ≤ q.start := by
    have := (h.hull_covers hs hq).1
    exact this
  obtain ⟨r, hr, hwhole⟩ := h.text_at q hq
  obtain ⟨b, v, hbv, hb⟩ := hwhole.exists_first
  have htrim := hwhole.trimRight_text
  obtain ⟨-, gap, -, htext⟩ := trimRight_spec q.token.text
  obtain ⟨u, hu, hlength⟩ : ∃ u, body.drop p.start = u ++ (q.token.trimmed ++ (gap ++ r)) ∧
      u.length = q.start - p.start := by
    refine ⟨(body.drop p.start).take (q.start - p.start), ?_, ?_⟩
    · rw [← List.append_assoc q.token.trimmed, ← htrim, ← htext, ← hr]
      have := List.take_append_drop (q.start - p.start) (body.drop p.start)
      rw [List.drop_drop, Nat.add_sub_cancel' hle] at this
      exact this.symm
    · have := h.bounds q hq
      rw [List.length_take, List.length_drop]
      omega
  refine ⟨u, b, v, ?_, hb⟩
  rw [← hbv, htrim, Span.text, hu, ← List.append_assoc]
  apply List.take_left'
  rw [List.length_append, hlength, Placed.stop]
  exact (Nat.sub_add_comm hle).symm

theorem not_endsTrivial (h : Standing body qs) (hs : Placed.hull qs = some s) :
    ¬ EndsTrivial (s.text body) := by
  obtain ⟨u, b, v, htext, hb⟩ := h.hull_text hs
  rw [htext, ← trimRight_append_cons hb.1 hb.2]
  exact (trimRight_spec _).1

theorem not_startsTrivial (h : Standing body qs) (hs : Placed.hull qs = some s) :
    ¬ StartsTrivial (s.text body) := by
  have hlt := (h.hull_bounds hs).1
  obtain ⟨p, hp, q, -, rfl⟩ := Placed.exists_of_hull hs
  obtain ⟨r, hr, hwhole⟩ := h.text_at p hp
  obtain ⟨b, v, hbv, hb⟩ := hwhole.exists_first
  obtain ⟨n, hn⟩ : ∃ n, q.stop - p.start = n + 1 := ⟨q.stop - p.start - 1, by simp at hlt; omega⟩
  rw [Span.text, hr, hbv, hn, List.cons_append, List.take_succ_cons]
  exact not_startsTrivial_of_ascii hb.1 hb.2

end Standing

namespace Placement

/-- Every node has a block of the tokens, and its span is the hull of the block. -/
theorem exists_block (h : Placement g ps qs) {n : Node L} (hn : n ∈ ps.flatMap Part.walk) :
    ∃ us s, us <:+: qs ∧ Placement g n.parts us ∧ Placed.hull us = some s ∧ n.loc = g s := by
  induction h with
  | nil => simp at hn
  | token _ ih =>
    obtain ⟨us, s, hsub, hblock⟩ := ih (by simpa [Part.walk] using hn)
    exact ⟨us, s, hsub.trans (List.suffix_cons _ _).isInfix, hblock⟩
  | omitted _ ih => exact ih (by simpa [Part.walk] using hn)
  | kept _ ih =>
    obtain ⟨us, s, hsub, hblock⟩ := ih (by simpa [Part.walk] using hn)
    exact ⟨us, s, hsub.trans (List.suffix_cons _ _).isInfix, hblock⟩
  | @node m s ps us qs hhull hloc hparts _ ihm ih =>
    rw [List.flatMap_cons, Part.walk, Node.walk_eq_parts, List.append_assoc] at hn
    rcases List.mem_append.mp hn with hn | hn
    · obtain ⟨vs, s, hsub, hblock⟩ := ihm hn
      exact ⟨vs, s, hsub.trans (List.prefix_append us qs).isInfix, hblock⟩
    rcases List.mem_append.mp hn with hn | hn
    · obtain rfl := List.mem_singleton.mp hn
      exact ⟨us, s, (List.prefix_append us qs).isInfix, hparts, hhull, hloc⟩
    · obtain ⟨vs, s, hsub, hblock⟩ := ih hn
      exact ⟨vs, s, hsub.trans (List.suffix_append us qs).isInfix, hblock⟩

variable {ps : List (Part Span)}

/-- The nodes among the parts start and end with tokens of theirs. -/
theorem exists_ends (h : Placement id ps qs) {n : Node Span} (hn : n ∈ ps.filterMap Part.node?) :
    ∃ p ∈ qs, ∃ q ∈ qs, n.loc = ⟨p.start, q.stop⟩ := by
  obtain ⟨part, hpart, hnode⟩ := List.mem_filterMap.mp hn
  have hmem : n ∈ ps.flatMap Part.walk := by
    refine List.mem_flatMap.mpr ⟨part, hpart, ?_⟩
    cases part with
    | node m =>
      obtain rfl := Option.some.inj hnode
      exact Node.self_mem_walk _
    | token t => simp [Part.node?] at hnode
    | optional t => simp [Part.node?] at hnode
  obtain ⟨us, s, hsub, -, hhull, hloc⟩ := h.exists_block hmem
  obtain ⟨p, hp, q, hq, rfl⟩ := Placed.exists_of_hull hhull
  exact ⟨p, hsub.subset hp, q, hsub.subset hq, hloc⟩

/-- Siblings follow each other without overlap. -/
theorem pairwise_nodes (h : Placement id ps qs)
    (hordered : qs.Pairwise fun p q => p.stop ≤ q.start) :
    (ps.filterMap Part.node?).Pairwise fun a b => a.loc.stop ≤ b.loc.start := by
  induction h with
  | nil => exact .nil
  | token _ ih => exact ih (List.pairwise_cons.mp hordered).2
  | omitted _ ih => exact ih hordered
  | kept _ ih => exact ih (List.pairwise_cons.mp hordered).2
  | @node n s ps us qs hhull hloc _ hps _ ih =>
    obtain ⟨-, hqs, hbetween⟩ := List.pairwise_append.mp hordered
    refine .cons (fun b hb => ?_) (ih hqs)
    obtain ⟨p, -, q, hq, rfl⟩ := Placed.exists_of_hull hhull
    obtain ⟨p', hp', q', -, hb⟩ := hps.exists_ends hb
    rw [hloc, hb]
    exact hbetween q hq p' hp'

end Placement

end SchemaDoc.Grammar

namespace SchemaDoc

open Grammar

variable {body : Bytes} {qs us : List Placed} {n : Node Span} {doc : Document Span}

/-- What the text of its span must be for a node that is a single token. -/
def Node.IsLeafText {L : Type} : Node L → Bytes → Prop
  | .name x, s => s = x.text
  | .comment x, s => ∃ gap, Gap gap ∧ x.text = s ++ gap
  | .value (.number _ x), s => s = x.literal
  | .value (.boolean _ b), s => s = bytes (if b then "true" else "false")
  | _, _ => True

def Node.IsEmptyDocument {L : Type} : Node L → Prop
  | .document d => d.definitions = []
  | _ => False

/-- The span of a node is exact in a text with these tokens. -/
structure Node.ExactSpan (body : Bytes) (qs : List Placed) (n : Node Span) : Prop where
  start_le_stop : n.loc.start ≤ n.loc.stop
  stop_le_length : n.loc.stop ≤ body.length
  at_end : n.IsEmptyDocument → n.loc = ⟨body.length, body.length⟩
  start_lt_stop : ¬ n.IsEmptyDocument → n.loc.start < n.loc.stop
  /-- The span goes from the first to the last token of the node. -/
  ends : ¬ n.IsEmptyDocument →
    ∃ us, us <:+: qs ∧ n.Spells (us.map Placed.token) ∧ Placed.hull us = some n.loc
  not_startsTrivial : ¬ StartsTrivial (n.loc.text body)
  not_endsTrivial : ¬ EndsTrivial (n.loc.text body)
  contains_children : ∀ m ∈ n.children, n.loc.contains m.loc = true
  children_ordered : n.children.Pairwise fun a b => a.loc.stop ≤ b.loc.start
  leaf_text : n.IsLeafText (n.loc.text body)

private theorem text_of_token {t : Token} (h : Placement id [.token t] us)
    (hstand : Standing body us) {s : Span} (hs : Placed.hull us = some s) :
    s.text body = t.trimmed := by
  cases h with
  | token h =>
    cases h
    obtain rfl := Option.some.inj hs
    exact hstand.text_of_singleton

theorem Node.leafText_of_block (h : Placement id n.parts us) (hstand : Standing body us)
    (hs : Placed.hull us = some n.loc) : n.IsLeafText (n.loc.text body) := by
  cases n with
  | name x => exact text_of_token h hstand hs
  | comment x =>
    obtain ⟨-, gap, hgap, htext⟩ := trimRight_spec x.text
    refine ⟨gap, hgap, ?_⟩
    rw [text_of_token h hstand hs]
    exact htext
  | value v =>
    cases v with
    | number loc x => exact text_of_token h hstand hs
    | boolean loc b => exact text_of_token h hstand hs
    | _ => trivial
  | _ => trivial

/-- A node whose span is the hull of its block has an exact span. -/
theorem Node.exactSpan_of_block (hqs : Standing body qs) (hsub : us <:+: qs)
    (h : Placement id n.parts us) (hs : Placed.hull us = some n.loc) : n.ExactSpan body qs := by
  have hstand := hqs.sublist hsub.sublist
  obtain ⟨hlt, hle⟩ := hstand.hull_bounds hs
  have hempty : ¬ n.IsEmptyDocument := by
    intro hn
    cases n with
    | document d =>
      have hparts : (Node.document d).parts = [] := by
        simp [parts, show d.definitions = [] from hn, Element.parts]
      rw [hparts] at h
      cases h
      simp [Placed.hull] at hs
    | _ => exact hn
  exact {
    start_le_stop := Nat.le_of_lt hlt
    stop_le_length := hle
    at_end := fun hn => absurd hn hempty
    start_lt_stop := fun _ => hlt
    ends := fun _ => ⟨us, hsub, h.spells, hs⟩
    not_startsTrivial := hstand.not_startsTrivial hs
    not_endsTrivial := hstand.not_endsTrivial hs
    contains_children := by
      intro m hm
      obtain ⟨p, hp, q, hq, hloc⟩ := h.exists_ends hm
      have hstart := (hstand.hull_covers hs hp).1
      have hstop := (hstand.hull_covers hs hq).2
      simp [Span.contains, hloc, hstart, hstop]
    children_ordered := h.pairwise_nodes hstand.ordered
    leaf_text := Node.leafText_of_block h hstand hs }

/-- The empty document stands at the end of a text of trivia alone. -/
theorem Node.exactSpan_of_empty (hdoc : doc.definitions = [])
    (hloc : doc.loc = ⟨body.length, body.length⟩) : (Node.document doc).ExactSpan body qs := by
  have hparts : (Node.document doc).parts = [] := by
    simp [parts, hdoc, Element.parts]
  have htext : (Node.document doc).loc.text body = [] := by
    simp [Node.loc, hloc, Span.text]
  have hnil : ¬ EndsTrivial [] := by
    have := (trimRight_spec []).1
    rwa [trimRight_nil] at this
  exact {
    start_le_stop := by simp [Node.loc, hloc]
    stop_le_length := by simp [Node.loc, hloc]
    at_end := fun _ => hloc
    start_lt_stop := fun hn => absurd hdoc hn
    ends := fun hn => absurd hdoc hn
    not_startsTrivial := by rw [htext]; exact not_startsTrivial_nil
    not_endsTrivial := by rw [htext]; exact hnil
    contains_children := by simp [children, hparts]
    children_ordered := by simp [children, hparts]
    leaf_text := trivial }

/-- The nodes of a parsed document have exact spans in one layout of its text. -/
theorem Source.exactSpan_of_parse {s : Source} (h : s.parse = .ok doc) :
    ∃ l : Layout, l.text = s.body ∧ doc.Spells l.tokens ∧
      ∀ n ∈ doc.walk, n.ExactSpan s.body l.placed := by
  obtain ⟨l, d, hbody, hreading, hplaced, hloc, hd⟩ :=
    Document.exists_placement_of_parse (Source.parse_eq_ok_iff.mp h)
  have hstand := hreading.standing hd
  refine ⟨l, hbody, ?_, fun n hn => ?_⟩
  · rw [← l.map_token_placed]
    exact hplaced.spells
  change n ∈ (Node.document doc).walk at hn
  rw [Node.walk_eq_parts] at hn
  rcases List.mem_append.mp hn with hn | hn
  · obtain ⟨us, loc, hsub, hblock, hhull, rfl⟩ := hplaced.exists_block hn
    exact Node.exactSpan_of_block hstand hsub hblock hhull
  obtain rfl := List.mem_singleton.mp hn
  cases hqs : l.placed with
  | nil =>
    rw [hqs] at hplaced hreading
    have hskip : (Cursor.ofBody s.body).skipTrivia = ⟨s.body.length, []⟩ := by
      cases hreading with
      | nil hskip => exact hskip.trans hd
    refine Node.exactSpan_of_empty ?_ ?_
    · refine List.eq_nil_iff_forall_not_mem.mpr fun e he => ?_
      have hmem : e.node .definition ∈ (Node.document doc).parts.filterMap Part.node? := by
        rw [Node.parts, Element.filterMap_parts]
        exact List.mem_map_of_mem he
      obtain ⟨p, hp, -⟩ := hplaced.exists_ends hmem
      simp at hp
    · rw [hloc, Cursor.spanTo, hskip]
      simp [trimRight_nil]
  | cons q qs =>
    rw [hqs] at hplaced hreading hstand
    have hhull := hreading.hull_eq
    rw [← hloc] at hhull
    exact Node.exactSpan_of_block hstand (List.infix_rfl) hplaced hhull

theorem sampleSource_exactSpan :
    ∃ doc, sampleSource.parse = .ok doc ∧
      ∃ l : Layout, l.text = sampleSource.body ∧ doc.Spells l.tokens ∧
        ∀ n ∈ doc.walk, n.ExactSpan sampleSource.body l.placed := by
  obtain ⟨doc, h⟩ : ∃ doc, sampleSource.parse = .ok doc := ⟨_, rfl⟩
  exact ⟨doc, h, Source.exactSpan_of_parse h⟩

end SchemaDoc
