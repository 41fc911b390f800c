import SchemaDoc.Fault
import SchemaDoc.Proofs.Layout.Basic
import SchemaDoc.Proofs.Soundness.Definitions

/-! # What a parsed text consists of

A text that parses is nothing but the tokens of its document and trivia around
them: no character of it is passed over, and no token of the tree is made up.
-/

namespace SchemaDoc

open Grammar

variable {body : Bytes} {doc : Document Span}

theorem Document.parse_eq_ok_iff :
    Document.parse body = .ok doc ↔ ∃ d, document (.ofBody body) = .matched doc d := by
  rw [Document.parse]
  cases document (.ofBody body) <;> simp

theorem Source.parse_eq_ok_iff {s : Source} :
    s.parse = .ok doc ↔ Document.parse s.body = .ok doc := by
  rw [Source.parse]
  cases Document.parse s.body <;> simp

/-- The definitions of a parsed document are written in its text from end to end. -/
theorem Document.written_of_parse (h : Document.parse body = .ok doc) :
    ∃ d, Written .constant id (Node.document doc).parts (.ofBody body) d ∧
      doc.loc = (Cursor.ofBody body).spanTo d ∧ d.skipTrivia = ⟨body.length, []⟩ := by
  obtain ⟨e, he⟩ := Document.parse_eq_ok_iff.mp h
  obtain ⟨⟨hreaches, hwritten⟩, hend⟩ := document_covers he
  obtain ⟨d, -, hloc, hparts, hd⟩ := Written.node_iff.mp hwritten
  obtain ⟨w, hw, ho⟩ := hreaches.trans e.reaches_skipTrivia
  have hskip : d.skipTrivia = e.skipTrivia := Written.nil_iff.mp hd
  have hrest : e.skipTrivia.rest = [] := by
    have := e.reaches_skipTrivia.length_le
    rw [hend] at this
    exact List.eq_nil_of_length_eq_zero (by simpa using this)
  have hoffset : e.skipTrivia.offset = body.length := by
    rw [hrest, List.append_nil] at hw
    rw [ho, ← hw]
    exact Nat.zero_add body.length
  refine ⟨d, hparts, hloc, ?_⟩
  calc d.skipTrivia = ⟨e.skipTrivia.offset, e.skipTrivia.rest⟩ := hskip
    _ = ⟨body.length, []⟩ := by rw [hoffset, hrest]

/-- The nodes of a parsed document have their places in a layout of its text. -/
theorem Document.exists_placement_of_parse (h : Document.parse body = .ok doc) :
    ∃ (l : Layout) (d : Cursor), l.text = body ∧ Reading (.ofBody body) l.placed d ∧
      Placement id (Node.document doc).parts l.placed ∧
      doc.loc = (Cursor.ofBody body).spanTo d ∧ d.skipTrivia = ⟨body.length, []⟩ := by
  obtain ⟨d, hwritten, hloc, hd⟩ := Document.written_of_parse h
  have hproper := Node.parts_proper (k := .constant) (n := .document doc) trivial
  obtain ⟨qs, hplaced, hreading⟩ := hwritten.exists_placement hproper
  obtain ⟨l, hbody, rfl⟩ := hreading.exists_layout_of_body (by rw [hd])
  exact ⟨l, d, hbody, hreading, hplaced, hloc, hd⟩

theorem Document.exists_reading_of_parse (h : Document.parse body = .ok doc) :
    ∃ (l : Layout) (d : Cursor), l.text = body ∧ Reading (.ofBody body) l.placed d ∧
      doc.Spells l.tokens := by
  obtain ⟨l, d, hbody, hreading, hplaced, -, -⟩ := Document.exists_placement_of_parse h
  refine ⟨l, d, hbody, hreading, ?_⟩
  rw [← l.map_token_placed]
  exact hplaced.spells

/-- The text of a parsed document is made of the tokens of the document and gaps of trivia around
them, in this order and of nothing else. -/
theorem Source.exists_layout_of_parse {s : Source} (h : s.parse = .ok doc) :
    ∃ l : Layout, l.text = s.body ∧ doc.Spells l.tokens := by
  obtain ⟨l, d, hbody, -, hplaced, -, -⟩ :=
    Document.exists_placement_of_parse (Source.parse_eq_ok_iff.mp h)
  refine ⟨l, hbody, ?_⟩
  rw [← l.map_token_placed]
  exact hplaced.spells

/-- An object with an empty list of interfaces, a comment and a nested default value. -/
def sampleSource : Source :=
  ⟨bytes "sample", bytes
    "type A implements,\n\x7b #x \r a(b: Int! = [-1.5e3, \x7bc: \"\\\"\"\x7d]): [B!]\x7d"⟩

theorem sampleSource_layout :
    ∃ doc, sampleSource.parse = .ok doc ∧
      ∃ l : Layout, l.text = sampleSource.body ∧ doc.Spells l.tokens := by
  obtain ⟨doc, h⟩ : ∃ doc, sampleSource.parse = .ok doc := ⟨_, rfl⟩
  exact ⟨doc, h, Source.exists_layout_of_parse h⟩

end SchemaDoc
