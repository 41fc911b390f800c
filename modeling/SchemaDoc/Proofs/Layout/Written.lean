import SchemaDoc.Proofs.Grammar.Cursor
import SchemaDoc.Proofs.Syntax.Part
import SchemaDoc.Proofs.Syntax.WellFormed

/-! # Trees written in a text

A sequence of parts is written between two cursors when its tokens are read one
after the other and every node in it is admissible and annotated with the span
from its first token to its last. The annotation of a span is any function of
it: with the identity the spans themselves are in the tree, with a constant
function the tree is one without locations.
-/

namespace SchemaDoc.Grammar

variable {L : Type} {k : Constancy} {g : Span → L} {n : Node L} {ps qs : List (Part L)}
  {c d e m : Cursor} {t : Token}

/-- The span from the first token behind `c` to the last one before `d`. -/
def Cursor.spanTo (c d : Cursor) : Span :=
  let start := c.skipTrivia
  ⟨start.offset,
    start.offset + (trimRight (start.rest.take (d.skipTrivia.offset - start.offset))).length⟩

theorem Cursor.spanTo_congr_left (h : c.skipTrivia = e.skipTrivia) (d : Cursor) :
    c.spanTo d = e.spanTo d := by
  rw [spanTo, spanTo, h]

theorem Cursor.spanTo_congr_right (h : d.skipTrivia = e.skipTrivia) (c : Cursor) :
    c.spanTo d = c.spanTo e := by
  rw [spanTo, spanTo, h]

/-- The text between two cursors, less the trivia at its end, gives the span between them. -/
theorem Cursor.spanTo_eq {w : Bytes} (hw : c.skipTrivia.rest = w ++ d.rest)
    (hd : d.offset = c.skipTrivia.offset + w.length) :
    c.spanTo d = ⟨c.skipTrivia.offset, c.skipTrivia.offset + (trimRight w).length⟩ := by
  obtain ⟨gap, hgap, hrest, hoffset⟩ := d.exists_gap_skipTrivia
  have htake : c.skipTrivia.rest.take (d.skipTrivia.offset - c.skipTrivia.offset) = w ++ gap := by
    rw [hoffset, hd, hw, hrest, ← List.append_assoc]
    apply List.take_left'
    rw [List.length_append]
    omega
  rw [spanTo, htake, trimRight_append_gap hgap]

/-- The parts are written from `c` to `d`, up to trivia at both ends. -/
inductive Written (k : Constancy) (g : Span → L) : List (Part L) → Cursor → Cursor → Prop where
  | nil {c d : Cursor} : c.skipTrivia = d.skipTrivia → Written k g [] c d
  | token {t : Token} {ps : List (Part L)} {c m d : Cursor} :
      t.Reads c m → Written k g ps m d → Written k g (.token t :: ps) c d
  | omitted {t : Token} {ps : List (Part L)} {c d : Cursor} :
      Written k g ps c d → Written k g (.optional t :: ps) c d
  | kept {t : Token} {ps : List (Part L)} {c m d : Cursor} :
      t.Reads c m → Written k g ps m d → Written k g (.optional t :: ps) c d
  | node {n : Node L} {ps : List (Part L)} {c m d : Cursor} :
      n.Admissible k → n.loc = g (c.spanTo m) → Written k g n.parts c m →
        Written k g ps m d → Written k g (.node n :: ps) c d

namespace Written

theorem congr_left (h : Written k g ps c d) (hc : c.skipTrivia = e.skipTrivia) :
    Written k g ps e d := by
  induction h generalizing e with
  | nil h => exact .nil (hc.symm.trans h)
  | token ht h _ => exact .token (ht.congr hc) h
  | omitted _ ih => exact .omitted (ih hc)
  | kept ht h _ => exact .kept (ht.congr hc) h
  | node hn hloc _ h ihn _ =>
    exact .node hn (by rw [hloc, Cursor.spanTo_congr_left hc]) (ihn hc) h

theorem congr_right (h : Written k g ps c d) (hd : d.skipTrivia = e.skipTrivia) :
    Written k g ps c e := by
  induction h with
  | nil h => exact .nil (h.trans hd)
  | token ht _ ih => exact .token ht (ih hd)
  | omitted _ ih => exact .omitted (ih hd)
  | kept ht _ ih => exact .kept ht (ih hd)
  | node hn hloc h _ _ ih => exact .node hn hloc h (ih hd)

theorem append (h : Written k g ps c m) (h' : Written k g qs m d) :
    Written k g (ps ++ qs) c d := by
  induction h with
  | nil h => exact h'.congr_left h.symm
  | token ht _ ih => exact .token ht (ih h')
  | omitted _ ih => exact .omitted (ih h')
  | kept ht _ ih => exact .kept ht (ih h')
  | node hn hloc h _ _ ih => exact .node hn hloc h (ih h')

theorem nil_iff : Written k g [] c d ↔ c.skipTrivia = d.skipTrivia :=
  ⟨fun h => by cases h; assumption, .nil⟩

theorem token_iff :
    Written k g (.token t :: ps) c d ↔ ∃ m, t.Reads c m ∧ Written k g ps m d := by
  constructor
  · intro h
    cases h with
    | token ht h => exact ⟨_, ht, h⟩
  · rintro ⟨m, ht, h⟩
    exact .token ht h

theorem mark_iff {s : String} :
    Written k g (.mark s :: ps) c d ↔
      ∃ m, (Token.mark (bytes s)).Reads c m ∧ Written k g ps m d :=
  token_iff

theorem word_iff {s : String} :
    Written k g (.word s :: ps) c d ↔
      ∃ m, (Token.word (bytes s)).Reads c m ∧ Written k g ps m d :=
  token_iff

theorem optional_iff :
    Written k g (.optional t :: ps) c d ↔
      Written k g ps c d ∨ ∃ m, t.Reads c m ∧ Written k g ps m d := by
  constructor
  · intro h
    cases h with
    | omitted h => exact .inl h
    | kept ht h => exact .inr ⟨_, ht, h⟩
  · rintro (h | ⟨m, ht, h⟩)
    · exact .omitted h
    · exact .kept ht h

theorem node_iff :
    Written k g (.node n :: ps) c d ↔ ∃ m, n.Admissible k ∧ n.loc = g (c.spanTo m) ∧
      Written k g n.parts c m ∧ Written k g ps m d := by
  constructor
  · intro h
    cases h with
    | node hn hloc hm h => exact ⟨_, hn, hloc, hm, h⟩
  · rintro ⟨m, hn, hloc, hm, h⟩
    exact .node hn hloc hm h

theorem append_iff :
    Written k g (ps ++ qs) c d ↔ ∃ m, Written k g ps c m ∧ Written k g qs m d := by
  constructor
  · intro h
    induction ps generalizing c with
    | nil => exact ⟨c, .nil rfl, h⟩
    | cons p ps ih =>
      cases h with
      | token ht h =>
        obtain ⟨m, hm, h⟩ := ih h
        exact ⟨m, .token ht hm, h⟩
      | omitted h =>
        obtain ⟨m, hm, h⟩ := ih h
        exact ⟨m, .omitted hm, h⟩
      | kept ht h =>
        obtain ⟨m, hm, h⟩ := ih h
        exact ⟨m, .kept ht hm, h⟩
      | node hn hloc hnode h =>
        obtain ⟨m, hm, h⟩ := ih h
        exact ⟨m, .node hn hloc hnode hm, h⟩
  · rintro ⟨m, h, h'⟩
    exact h.append h'

theorem cons_iff {p : Part L} :
    Written k g (p :: ps) c d ↔ ∃ m, Written k g [p] c m ∧ Written k g ps m d := by
  rw [← append_iff, List.singleton_append]

theorem single_iff :
    Written k g [.node n] c d ↔
      n.Admissible k ∧ n.loc = g (c.spanTo d) ∧ Written k g n.parts c d := by
  rw [node_iff]
  constructor
  · rintro ⟨m, hn, hloc, hparts, hd⟩
    have hmd := nil_iff.mp hd
    exact ⟨hn, by rw [hloc, Cursor.spanTo_congr_right hmd], hparts.congr_right hmd⟩
  · rintro ⟨hn, hloc, hparts⟩
    exact ⟨d, hn, hloc, hparts, .nil rfl⟩

theorem reaches (h : Written k g ps c d) : c.skipTrivia.Reaches d.skipTrivia := by
  induction h with
  | nil h =>
    rw [h]
    exact .refl _
  | token ht _ ih => exact (Cursor.Reaches.trans ⟨_, ht.1⟩ (Cursor.reaches_skipTrivia _)).trans ih
  | omitted _ ih => exact ih
  | kept ht _ ih => exact (Cursor.Reaches.trans ⟨_, ht.1⟩ (Cursor.reaches_skipTrivia _)).trans ih
  | node _ _ _ _ ihn ih => exact ihn.trans ih

theorem reaches_token (h : Written k g ps c m) (ht : t.Reads m d) : c.skipTrivia.Reaches d :=
  h.reaches.trans ⟨_, ht.1⟩

/-- Every node of a tree that is written in a text is admissible. -/
theorem admissible (h : Written k g ps c d) : ∀ n ∈ ps.flatMap Part.walk, n.Admissible k := by
  induction h with
  | nil _ => simp
  | token _ _ ih => simpa [Part.walk] using ih
  | omitted _ ih => simpa [Part.walk] using ih
  | kept _ _ ih => simpa [Part.walk] using ih
  | node hn _ _ _ ihn ih =>
    rw [List.flatMap_cons, Part.walk, Node.walk_eq_parts, List.forall_mem_append,
      List.forall_mem_append]
    exact ⟨⟨ihn, List.forall_mem_singleton.mpr hn⟩, ih⟩

end Written

end SchemaDoc.Grammar
