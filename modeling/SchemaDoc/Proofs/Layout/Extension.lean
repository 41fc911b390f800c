import SchemaDoc.Proofs.Layout.Placement

/-! # A line behind a text

A line feed is part of no token, so whatever is read in front of the end of a
text is read in the same way when a line feed and any further text follow. Only
at the end itself, where nothing but trivia is left, can a longer text differ.
-/

namespace SchemaDoc.Grammar

variable {c d : Cursor} {r s t : Bytes} {qs : List Placed}

namespace Cursor

/-- The cursor in a longer text. -/
def extend (r : Bytes) (c : Cursor) : Cursor := ⟨c.offset, c.rest ++ r⟩

theorem skipTrivia_gap_append {gap : Bytes} (hg : Gap gap) (o : Nat) (s : Bytes) :
    (Cursor.mk o (gap ++ s)).skipTrivia = (Cursor.mk (o + gap.length) s).skipTrivia := by
  simp only [skipTrivia, advance, triviaLength_append hg, Nat.add_assoc, ← List.drop_drop,
    List.drop_left]

theorem skipTrivia_extend (r : Bytes) (c : Cursor) :
    (c.extend r).skipTrivia = (c.skipTrivia.extend r).skipTrivia := by
  obtain ⟨gap, hg, hrest, hoffset⟩ := c.exists_gap_skipTrivia
  rw [extend, hrest, List.append_assoc, skipTrivia_gap_append hg, extend, hoffset]

/-- Nothing but trivia is left of the text. -/
def AtEnd (c : Cursor) : Prop := c.skipTrivia.rest = []

theorem skipTrivia_extend_line (hc : ¬ c.AtEnd) (r : Bytes) :
    (c.extend (0x0A :: r)).skipTrivia = c.skipTrivia.extend (0x0A :: r) := by
  rw [skipTrivia_extend]
  apply skipTrivia_of_not_startsTrivial
  change ¬ StartsTrivial (c.skipTrivia.rest ++ 0x0A :: r)
  rw [startsTrivial_append_line hc]
  exact c.not_startsTrivial_skipTrivia

theorem found_extend_line (hc : ¬ c.AtEnd) (r : Bytes) :
    (c.extend (0x0A :: r)).found = c.found := by
  have hfirst := Character.first_append_line hc r
  rw [found, found, skipTrivia_extend_line hc, extend]
  cases hs : c.skipTrivia.rest with
  | nil => exact absurd hs hc
  | cons b s =>
    rw [hs] at hfirst
    exact congrArg Found.character hfirst

/-- What holds no line feed and stands in front of one stands there without it. -/
private theorem exists_of_append_line (ht : 0x0A ∉ t) {v : Bytes} (h : s ++ 0x0A :: r = t ++ v) :
    ∃ w, s = t ++ w := by
  rcases List.append_eq_append_iff.mp h with ⟨w, rfl, hw⟩ | ⟨w, rfl, -⟩
  · cases w with
    | nil => exact ⟨[], by simp⟩
    | cons b w =>
      obtain ⟨rfl, -⟩ := List.cons.inj hw
      simp at ht
  · exact ⟨w, rfl⟩

theorem literal?_extend_line (hc : ¬ c.AtEnd) (ht : 0x0A ∉ t) (r : Bytes) :
    (c.extend (0x0A :: r)).literal? t = (c.literal? t).map (extend (0x0A :: r)) := by
  have hskip := skipTrivia_extend_line hc r
  cases h : c.literal? t with
  | some d =>
    obtain ⟨hrest, hoffset⟩ := literal?_eq_some_iff.mp h
    rw [Option.map_some, literal?_eq_some_iff, Takes, hskip]
    refine ⟨?_, hoffset⟩
    simp only [extend, hrest, List.append_assoc]
  | none =>
    rw [Option.map_none, Option.eq_none_iff_forall_ne_some]
    intro d hd
    have hrest := (literal?_eq_some_iff.mp hd).1
    rw [hskip, extend] at hrest
    obtain ⟨w, hw⟩ := exists_of_append_line ht hrest
    have hd' : c.literal? t = some ⟨c.skipTrivia.offset + t.length, w⟩ :=
      literal?_eq_some_iff.mpr ⟨hw, rfl⟩
    simp [h] at hd'

theorem keyword?_extend_line (hc : ¬ c.AtEnd) (ht : 0x0A ∉ t) (r : Bytes) :
    (c.extend (0x0A :: r)).keyword? t = (c.keyword? t).map (extend (0x0A :: r)) := by
  rw [keyword?, keyword?, literal?_extend_line hc ht]
  cases c.literal? t with
  | none => rfl
  | some d =>
    obtain ⟨o, rest⟩ := d
    cases rest with
    | nil => rfl
    | cons b s => cases h : isNameContinue b <;> simp [extend, h]

theorem lexeme?_extend_line (hc : ¬ c.AtEnd) (l : Lexeme) (r : Bytes) :
    (c.extend (0x0A :: r)).lexeme? l =
      (c.lexeme? l).map fun read => (read.1, read.2.extend (0x0A :: r)) := by
  simp only [lexeme?, skipTrivia_extend_line hc]
  simp only [extend, l.length?_append_line]
  cases h : l.length? c.skipTrivia.rest with
  | none => rfl
  | some n =>
    have hle := Lexeme.length?_le h
    simp [advance, List.take_append_of_le_length hle, List.drop_append_of_le_length hle]

end Cursor

theorem Token.Reads.not_atEnd {t : Token} (h : t.Reads c d) : ¬ c.AtEnd := by
  obtain ⟨b, s, ht, -⟩ := h.2.exists_first
  rw [Cursor.AtEnd, h.1.1, ht]
  simp

/-- A new line behind the text leaves the tokens in front of it as they are. -/
theorem Token.Reads.extend_line {t : Token} (h : t.Reads c d) (r : Bytes) :
    t.Reads (c.extend (0x0A :: r)) (d.extend (0x0A :: r)) := by
  refine ⟨?_, h.2.append_line r⟩
  rw [Cursor.Takes, Cursor.skipTrivia_extend_line h.not_atEnd]
  refine ⟨?_, h.1.2⟩
  change c.skipTrivia.rest ++ 0x0A :: r = t.text ++ (d.rest ++ 0x0A :: r)
  rw [h.1.1, List.append_assoc]

theorem Reading.extend_line (h : Reading c qs d) (r : Bytes) :
    Reading (c.extend (0x0A :: r)) qs (d.extend (0x0A :: r)) := by
  induction h with
  | @nil c d h =>
    apply Reading.nil
    rw [Cursor.skipTrivia_extend, h, ← Cursor.skipTrivia_extend]
  | @cons t c m d qs ht _ ih =>
    have hcons := Reading.cons (ht.extend_line r) ih
    rw [Cursor.skipTrivia_extend_line ht.not_atEnd] at hcons
    exact hcons

private theorem not_mem_of_mem_marks {token : Bytes} (h : token ∈ marks) : 0x0A ∉ token := by
  revert token
  decide

private theorem not_mem_of_isIdentifier {word : Bytes} (h : IsIdentifier word) : 0x0A ∉ word := by
  cases word with
  | nil => simp
  | cons b s =>
    rw [List.mem_cons, not_or]
    constructor
    · rintro rfl
      exact absurd h.1 (by decide)
    · intro hmem
      exact absurd (h.2 _ hmem) (by decide)

namespace Cursor

theorem literal?_lines {token : Bytes} (ht : token ∈ marks) (r : Bytes) (c : Cursor) :
    (∃ m, (Token.mark token).Reads c m ∧ c.literal? token = some m ∧
      (c.extend (0x0A :: r)).literal? token = some (m.extend (0x0A :: r))) ∨
    c.literal? token = none ∧ (¬ c.AtEnd → (c.extend (0x0A :: r)).literal? token = none) := by
  have hline := fun hc => c.literal?_extend_line hc (not_mem_of_mem_marks ht) r
  cases h : c.literal? token with
  | some m =>
    have hread := (Token.literal?_eq_some_iff ht).mp h
    exact .inl ⟨m, hread, rfl, by rw [hline hread.not_atEnd, h]; rfl⟩
  | none => exact .inr ⟨rfl, fun hc => by rw [hline hc, h]; rfl⟩

theorem keyword?_lines {word : Bytes} (hw : IsIdentifier word) (r : Bytes) (c : Cursor) :
    (∃ m, (Token.word word).Reads c m ∧ c.keyword? word = some m ∧
      (c.extend (0x0A :: r)).keyword? word = some (m.extend (0x0A :: r))) ∨
    c.keyword? word = none ∧ (¬ c.AtEnd → (c.extend (0x0A :: r)).keyword? word = none) := by
  have hline := fun hc => c.keyword?_extend_line hc (not_mem_of_isIdentifier hw) r
  cases h : c.keyword? word with
  | some m =>
    have hread := (Token.keyword?_eq_some_iff hw).mp h
    exact .inl ⟨m, hread, rfl, by rw [hline hread.not_atEnd, h]; rfl⟩
  | none => exact .inr ⟨rfl, fun hc => by rw [hline hc, h]; rfl⟩

theorem lexeme?_lines (l : Lexeme) (r : Bytes) (c : Cursor) :
    (∃ t m, c.lexeme? l = some (t, m) ∧
      (c.extend (0x0A :: r)).lexeme? l = some (t, m.extend (0x0A :: r))) ∨
    c.lexeme? l = none ∧ (¬ c.AtEnd → (c.extend (0x0A :: r)).lexeme? l = none) := by
  have hline := fun hc => c.lexeme?_extend_line hc l r
  cases h : c.lexeme? l with
  | some read =>
    have hc : ¬ c.AtEnd := by
      intro hc
      have havoids : c.Avoids l.starts := by
        rw [Avoids, hc]
        exact stops_nil
      have hnone := lexeme?_eq_none havoids
      simp [h] at hnone
    exact .inl ⟨read.1, read.2, rfl, by rw [hline hc, h]; rfl⟩
  | none => exact .inr ⟨rfl, fun hc => by rw [hline hc, h]; rfl⟩

end Cursor

end SchemaDoc.Grammar
