import SchemaDoc.Proofs.Grammar.Token

/-! # Reading tokens from a cursor

The primitive steps of the grammar are readings of single tokens: a literal is a
mark, a keyword is a word, and a lexeme is a token of its class. Each reads
exactly when the token stands whole behind the trivia at the cursor.
-/

namespace SchemaDoc.Grammar

namespace Cursor

variable {c d e : Cursor} {g r s t : Bytes}

/-- The cursor `d` is reached from `c` by moving over a part of the text. -/
def Reaches (c d : Cursor) : Prop :=
  ∃ w, c.rest = w ++ d.rest ∧ d.offset = c.offset + w.length

theorem Reaches.refl (c : Cursor) : c.Reaches c := ⟨[], rfl, rfl⟩

theorem Reaches.trans (h : c.Reaches d) (h' : d.Reaches e) : c.Reaches e := by
  obtain ⟨v, hv, hd⟩ := h
  obtain ⟨w, hw, he⟩ := h'
  exact ⟨v ++ w, by rw [hv, hw, List.append_assoc], by rw [he, hd, List.length_append]; omega⟩

theorem Reaches.length_le (h : c.Reaches d) : d.rest.length ≤ c.rest.length := by
  obtain ⟨w, hw, -⟩ := h
  rw [hw, List.length_append]
  omega

theorem skipTrivia_eq (hg : Gap g) (hr : ¬ StartsTrivial r) (o : Nat) :
    (Cursor.mk o (g ++ r)).skipTrivia = ⟨o + g.length, r⟩ := by
  simp [skipTrivia, advance, triviaLength_eq hg hr]

theorem skipTrivia_of_not_startsTrivial (h : ¬ StartsTrivial c.rest) : c.skipTrivia = c := by
  have := skipTrivia_eq .nil h c.offset
  simpa using this

theorem not_startsTrivial_skipTrivia (c : Cursor) : ¬ StartsTrivial c.skipTrivia.rest :=
  (triviaLength_spec c.rest).2

/-- Skipping trivia moves over a gap. -/
theorem exists_gap_skipTrivia (c : Cursor) :
    ∃ g, Gap g ∧ c.rest = g ++ c.skipTrivia.rest ∧ c.skipTrivia.offset = c.offset + g.length := by
  obtain ⟨g, r, hs, hg, hr⟩ := exists_gap c.rest
  have h := skipTrivia_eq hg hr c.offset
  rw [← hs] at h
  change c.skipTrivia = _ at h
  exact ⟨g, hg, by rw [h, hs], by rw [h]⟩

@[simp] theorem skipTrivia_skipTrivia (c : Cursor) : c.skipTrivia.skipTrivia = c.skipTrivia :=
  skipTrivia_of_not_startsTrivial c.not_startsTrivial_skipTrivia

theorem reaches_skipTrivia (c : Cursor) : c.Reaches c.skipTrivia := by
  obtain ⟨g, -, hs, ho⟩ := c.exists_gap_skipTrivia
  exact ⟨g, hs, ho⟩

/-- What is reached from the start of a text is a place in it. -/
theorem Reaches.eq_atOffset {body : Bytes} (h : (ofBody body).Reaches d) :
    d.offset ≤ body.length ∧ d = atOffset body d.offset := by
  obtain ⟨w, hw, ho⟩ := h
  change body = w ++ d.rest at hw
  change d.offset = 0 + w.length at ho
  rw [Nat.zero_add] at ho
  constructor
  · rw [ho, hw, List.length_append]
    omega
  · rw [atOffset, ho, hw, List.drop_left, ← ho]

/-- Behind trivia the text goes on with `t`, and `d` is the cursor behind that. -/
def Takes (c : Cursor) (t : Bytes) (d : Cursor) : Prop :=
  c.skipTrivia.rest = t ++ d.rest ∧ d.offset = c.skipTrivia.offset + t.length

theorem Takes.reaches (h : c.Takes t d) : c.Reaches d :=
  c.reaches_skipTrivia.trans ⟨t, h⟩

theorem literal?_eq_some_iff : c.literal? t = some d ↔ c.Takes t d := by
  rw [literal?, Takes]
  split
  · next h =>
    obtain ⟨r, hr⟩ := Bytes.startsWith_iff.mp h
    simp only [advance, hr, List.drop_left, List.append_cancel_left_eq, Option.some.injEq]
    constructor
    · rintro rfl
      exact ⟨rfl, rfl⟩
    · rintro ⟨rfl, ho⟩
      rw [← ho]
  · next h =>
    simp only [reduceCtorEq, false_iff, not_and]
    exact fun hr => absurd (Bytes.startsWith_iff.mpr ⟨d.rest, hr⟩) h

theorem keyword?_eq_some_iff :
    c.keyword? t = some d ↔ c.Takes t d ∧ Stops isNameContinue d.rest := by
  rw [keyword?]
  cases hl : c.literal? t with
  | none =>
    have hn : ¬ c.Takes t d := fun h => by simp [literal?_eq_some_iff.mpr h] at hl
    simp [hn]
  | some e =>
    have hde : c.Takes t d ↔ e = d := by
      rw [← literal?_eq_some_iff, hl, Option.some.injEq]
    rw [hde]
    obtain ⟨o, rest⟩ := e
    cases rest with
    | nil =>
      constructor
      · intro h
        obtain rfl := Option.some.inj h
        exact ⟨rfl, trivial⟩
      · rintro ⟨rfl, -⟩
        rfl
    | cons b s =>
      cases hb : isNameContinue b with
      | true =>
        simp only [hb, if_true, reduceCtorEq, false_iff, not_and]
        rintro rfl
        simp [Stops, hb]
      | false =>
        simp only [hb, Bool.false_eq_true, if_false, Option.some.injEq, iff_self_and]
        rintro rfl
        exact hb

theorem lexeme?_eq_some_iff {l : Lexeme} :
    c.lexeme? l = some (t, d) ↔
      c.Takes t d ∧ l.length? (t ++ d.rest) = some t.length := by
  rw [lexeme?, Option.map_eq_some_iff]
  constructor
  · rintro ⟨n, hn, h⟩
    obtain ⟨rfl, rfl⟩ := Prod.mk.inj h
    have hlen : (c.skipTrivia.rest.take n).length = n := by
      rw [List.length_take_of_le (Lexeme.length?_le hn)]
    simp only [Takes, advance, List.take_append_drop, hlen]
    exact ⟨⟨trivial, trivial⟩, hn⟩
  · rintro ⟨⟨hr, ho⟩, hn⟩
    refine ⟨t.length, by rw [hr, hn], ?_⟩
    simp only [advance, hr, List.take_left, List.drop_left, ← ho]

/-- Behind trivia the text goes on with a byte with the property `p`. -/
def Starts (p : UInt8 → Bool) (c : Cursor) : Prop :=
  ∃ b s, c.skipTrivia.rest = b :: s ∧ p b = true

/-- Behind trivia the text does not go on with a byte with the property `p`. -/
def Avoids (p : UInt8 → Bool) (c : Cursor) : Prop := Stops p c.skipTrivia.rest

theorem Starts.avoids {p q : UInt8 → Bool} (h : c.Starts q) (hpq : ∀ b, q b = true → p b = false) :
    c.Avoids p := by
  obtain ⟨b, s, hs, hb⟩ := h
  rw [Avoids, hs]
  exact hpq b hb

theorem Starts.avoids_byte {q : UInt8 → Bool} {b : UInt8} (h : c.Starts q) (hb : q b = false) :
    c.Avoids (· == b) := by
  refine h.avoids fun x hx => beq_eq_false_iff_ne.mpr ?_
  rintro rfl
  simp [hb] at hx

theorem Starts.mono {p q : UInt8 → Bool} (h : c.Starts q) (hpq : ∀ b, q b = true → p b = true) :
    c.Starts p := by
  obtain ⟨b, s, hs, hb⟩ := h
  exact ⟨b, s, hs, hpq b hb⟩

theorem Avoids.congr {p : UInt8 → Bool} (h : c.Avoids p) (hc : c.skipTrivia = d.skipTrivia) :
    d.Avoids p := by
  rw [Avoids, ← hc]
  exact h

@[simp] theorem avoids_skipTrivia {p : UInt8 → Bool} : c.skipTrivia.Avoids p ↔ c.Avoids p := by
  rw [Avoids, Avoids, skipTrivia_skipTrivia]

theorem literal?_eq_none {b : UInt8} (h : c.Avoids (· == b)) (s : Bytes) :
    c.literal? (b :: s) = none := by
  rw [Option.eq_none_iff_forall_ne_some]
  intro d hd
  rw [Avoids, (literal?_eq_some_iff.mp hd).1] at h
  simp at h

theorem keyword?_eq_none {b : UInt8} (h : c.Avoids (· == b)) (s : Bytes) :
    c.keyword? (b :: s) = none := by
  rw [keyword?, literal?_eq_none h]

theorem lexeme?_eq_none {l : Lexeme} (h : c.Avoids l.starts) : c.lexeme? l = none := by
  rw [lexeme?, Option.map_eq_none_iff, Option.eq_none_iff_forall_ne_some]
  intro n hn
  obtain ⟨b, s, hs, hb⟩ := Lexeme.exists_first hn
  rw [Avoids, hs] at h
  simp [hb] at h

end Cursor

namespace Token

variable {t : Token} {c d e : Cursor} {s : Bytes}

/-- The token is read at `c`, behind trivia, and `d` is the cursor directly behind it. -/
def Reads (t : Token) (c d : Cursor) : Prop := c.Takes t.text d ∧ t.Whole d.rest

theorem Reads.reaches (h : t.Reads c d) : c.Reaches d := h.1.reaches

theorem Reads.congr (h : t.Reads c d) (hc : c.skipTrivia = e.skipTrivia) : t.Reads e d := by
  unfold Reads Cursor.Takes at *
  rw [← hc]
  exact h

theorem Reads.length_lt (h : t.Reads c d) : d.rest.length < c.rest.length := by
  obtain ⟨b, s, ht, -⟩ := h.2.exists_first
  have hle := c.reaches_skipTrivia.length_le
  rw [h.1.1, ht, List.length_append, List.length_cons] at hle
  omega

theorem Reads.starts {p : UInt8 → Bool} (h : t.Reads c d) (hp : t.text.head?.any p = true) :
    c.Starts p := by
  obtain ⟨b, s, ht, -⟩ := h.2.exists_first
  refine ⟨b, s ++ d.rest, by rw [h.1.1, ht]; rfl, ?_⟩
  simpa [ht] using hp

theorem Reads.avoids {p : UInt8 → Bool} (h : t.Reads c d) (hp : t.text.head?.any p = false) :
    c.Avoids p := by
  obtain ⟨b, s, ht, -⟩ := h.2.exists_first
  rw [Cursor.Avoids, h.1.1, ht]
  simpa [ht] using hp

theorem literal?_eq_some_iff (hs : s ∈ marks) :
    c.literal? s = some d ↔ (mark s).Reads c d := by
  rw [Cursor.literal?_eq_some_iff]
  exact (and_iff_left hs).symm

theorem keyword?_eq_some_iff (hs : IsIdentifier s) :
    c.keyword? s = some d ↔ (word s).Reads c d := by
  rw [Cursor.keyword?_eq_some_iff]
  exact and_congr_right fun _ => (and_iff_right hs).symm

theorem lexeme?_name_eq_some_iff : c.lexeme? .name = some (s, d) ↔ (word s).Reads c d := by
  rw [Cursor.lexeme?_eq_some_iff]
  refine and_congr_right fun _ => ?_
  constructor
  · intro h
    obtain ⟨u, v, huv, hu, hv, hlen⟩ := Lexeme.exists_of_name? h
    obtain ⟨rfl, rfl⟩ := List.append_inj huv hlen.symm
    exact ⟨hu, hv⟩
  · intro h
    exact Lexeme.name?_append h.1 h.2

/-- A word that is read at a place is the only one. -/
theorem Reads.word_inj {u : Bytes} (h : (word s).Reads c d) (h' : (word u).Reads c e) : s = u := by
  have hs := lexeme?_name_eq_some_iff.mpr h
  rw [lexeme?_name_eq_some_iff.mpr h', Option.some.injEq, Prod.mk.injEq] at hs
  exact hs.1.symm

theorem keyword?_eq_none_of_ne {u : Bytes} (hs : IsIdentifier s) (h : (word u).Reads c d)
    (hne : u ≠ s) : c.keyword? s = none := by
  rw [Option.eq_none_iff_forall_ne_some]
  intro e he
  exact hne (h.word_inj ((keyword?_eq_some_iff hs).mp he))

theorem lexeme?_number_eq_some_iff :
    c.lexeme? .number = some (s, d) ↔ (number s).Reads c d :=
  Cursor.lexeme?_eq_some_iff

theorem lexeme?_comment_eq_some_iff :
    c.lexeme? .comment = some (s, d) ↔ (comment s).Reads c d := by
  rw [Cursor.lexeme?_eq_some_iff]
  refine and_congr_right fun _ => ?_
  constructor
  · intro h
    obtain ⟨u, v, huv, hu, hv, hlen⟩ := Lexeme.exists_of_comment? h
    obtain ⟨rfl, rfl⟩ := List.append_inj huv hlen.symm
    exact ⟨hu, hv⟩
  · intro h
    exact Lexeme.comment?_append h.1 h.2

theorem lexeme?_string_eq_some_iff :
    c.lexeme? .string = some (s, d) ↔ ∃ v, s = quote v ∧ (string v).Reads c d := by
  rw [Cursor.lexeme?_eq_some_iff]
  constructor
  · rintro ⟨ht, h⟩
    obtain ⟨u, v, huv, hu, hlen⟩ := Lexeme.exists_of_string? h
    obtain ⟨rfl, rfl⟩ := List.append_inj huv hlen.symm
    exact ⟨u, rfl, ht, hu⟩
  · rintro ⟨v, rfl, ht, hv⟩
    exact ⟨ht, Lexeme.string?_append hv d.rest⟩

end Token

end SchemaDoc.Grammar
