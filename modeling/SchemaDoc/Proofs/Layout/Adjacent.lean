import SchemaDoc.Proofs.Layout.Unique
import SchemaDoc.Proofs.Literal.Number
import SchemaDoc.Proofs.Soundness.WellFormed

/-! # Tokens without a gap between them

A word is always read to its end, so no letter, digit or underscore stands
directly behind one. A number ends where no longer number starts at its place:
nothing keeps a word from standing directly behind it, nor a number behind a
zero. In lists this splits a run of digits.
-/

namespace SchemaDoc

open Grammar

namespace Grammar

variable {c d : Cursor} {t u : Token} {g n : Bytes} {o : Nat}
  {before after : List (Token × Bytes)}

theorem Reading.whole_of_append
    (h : Reading c (Layout.placedFrom o (before ++ (t, g) :: after)) d)
    (hc : c.skipTrivia.rest = Layout.itemsText (before ++ (t, g) :: after))
    (hlaid : Laid (before ++ (t, g) :: after)) : t.Whole (g ++ Layout.itemsText after) := by
  induction before generalizing c o with
  | nil =>
    cases h with
    | cons ht _ =>
      rw [ht.1.1, List.nil_append, Layout.itemsText_cons] at hc
      rw [← List.append_cancel_left hc]
      exact ht.2
  | cons item before ih =>
    obtain ⟨u, gu⟩ := item
    obtain ⟨⟨-, hgap⟩, hrest⟩ := List.forall_mem_cons.mp hlaid
    cases h with
    | @cons _ _ m _ _ hu h =>
      rw [hu.1.1, List.cons_append, Layout.itemsText_cons] at hc
      have hskip : m.skipTrivia.rest = Layout.itemsText (before ++ (t, g) :: after) := by
        obtain ⟨g', hg', hm, -⟩ := m.exists_gap_skipTrivia
        rw [List.append_cancel_left hc] at hm
        exact (gap_append_inj hgap hg' (Laid.not_startsTrivial hrest)
          m.not_startsTrivial_skipTrivia hm).2.symm
      exact ih h hskip hrest

theorem isNumber_append_digit {b : UInt8} (hn : IsNumber n) (hb : Bytes.isDigit b = true) :
    n = bytes "0" ∨ n = bytes "-0" ∨ IsNumber (n ++ [b]) := by
  obtain ⟨minus, whole, fraction, exponent, hminus, hwhole, hfraction, hexponent, rfl⟩ := hn
  have digits {ds : Bytes} (hds : IsDigits ds) : IsDigits (ds ++ [b]) :=
    ⟨by simp, List.forall_mem_append.mpr ⟨hds.2, List.forall_mem_singleton.mpr hb⟩⟩
  rcases hexponent with rfl | ⟨mark, sign, ds, hmark, hsign, hds, rfl⟩
  · rcases hfraction with rfl | ⟨ds, hds, rfl⟩
    · rcases hwhole with rfl | ⟨x, ds, rfl, hx, hds⟩
      · rcases hminus with rfl | rfl
        · exact .inl rfl
        · exact .inr (.inl rfl)
      · refine .inr (.inr ⟨minus, x :: ds ++ [b], [], [], hminus,
          .inr ⟨x, ds ++ [b], rfl, hx, ?_⟩, .inl rfl, .inl rfl, by simp⟩)
        exact (digits ⟨by simp, hds⟩).2
    · exact .inr (.inr ⟨minus, whole, 0x2E :: (ds ++ [b]), [], hminus, hwhole,
        .inr ⟨_, digits hds, rfl⟩, .inl rfl, by simp⟩)
  · exact .inr (.inr ⟨minus, whole, fraction, mark :: (sign ++ (ds ++ [b])), hminus, hwhole,
      hfraction, .inr ⟨mark, sign, _, hmark, hsign, digits hds, rfl⟩, by simp⟩)

/-- A token that starts with a character of words is a word or a number without a sign. -/
theorem Token.Proper.eq_of_startsWord (h : t.Proper) (hs : t.startsWord = true) :
    (∃ w, t = .word w) ∨ ∃ l b s, t = .number l ∧ l = b :: s ∧ Bytes.isDigit b = true := by
  cases t with
  | word w => exact .inl ⟨w, rfl⟩
  | number l =>
    obtain ⟨b, s, rfl, hb⟩ := Lexeme.exists_first (l := .number) (Lexeme.isNumber_iff.mp h)
    refine .inr ⟨b :: s, b, s, rfl, rfl, ?_⟩
    rcases Bool.or_eq_true_iff.mp hb with hminus | hdigit
    · rw [eq_of_beq hminus] at hs
      exact absurd hs Bool.false_ne_true
    · exact hdigit
  | mark text =>
    have hmarks : ∀ s ∈ marks, s.head?.any isNameContinue = false := by decide
    exact absurd hs (by simp [startsWord, Token.text, hmarks text h])
  | string text => exact absurd hs Bool.false_ne_true
  | comment text =>
    obtain ⟨s, rfl, -⟩ := h
    exact absurd hs Bool.false_ne_true

/-- A token that ends with a character of words and stands whole directly in front of another one is
a number: a word would go on, and so would a comment. -/
theorem Token.Whole.eq_number {r : Bytes} (h : t.Whole (u.text ++ r)) (ht : t.endsWord = true)
    (hu : u.startsWord = true) : ∃ l, t = .number l := by
  obtain ⟨b, s, hb, hword⟩ : ∃ b s, u.text = b :: s ∧ isNameContinue b = true := by
    obtain ⟨b, hb, hword⟩ := (Option.any_eq_true _ _).mp hu
    obtain ⟨s, hs⟩ := List.head?_eq_some_iff.mp hb
    exact ⟨b, s, hs, hword⟩
  rw [hb] at h
  cases t with
  | mark text =>
    have hmarks : ∀ s ∈ marks, s.getLast?.any isNameContinue = false := by decide
    exact absurd ht (by simp [endsWord, Token.text, hmarks text h])
  | word w => exact absurd h.2 (by simp [hword])
  | number l => exact ⟨l, rfl⟩
  | string text =>
    have hquote : isNameContinue 0x22 = false := rfl
    exact absurd ht (by simp [endsWord, Token.text, quote, List.getLast?_cons, hquote])
  | comment text =>
    have hline : isLineEnd b = true := by simpa using h.2
    rcases Bool.or_eq_true_iff.mp hline with hb | hb <;> rw [eq_of_beq hb] at hword <;>
      exact absurd hword (by decide)

theorem Token.Whole.number_adjacent {l r : Bytes} (h : (Token.number l).Whole (u.text ++ r))
    (hu : u.Proper) (hs : u.startsWord = true) :
    IsLongestNumber l (l ++ (u.text ++ r)) ∧
      ((∃ w, u = .word w) ∨ ∃ k, u = .number k ∧ (l = bytes "0" ∨ l = bytes "-0")) := by
  have hlongest := number?_append_iff.mp h
  refine ⟨hlongest, ?_⟩
  rcases hu.eq_of_startsWord hs with hword | ⟨k, b, s, rfl, rfl, hb⟩
  · exact .inl hword
  · refine .inr ⟨_, rfl, ?_⟩
    rcases isNumber_append_digit hlongest.1 hb with hzero | hzero | hlonger
    · exact .inl hzero
    · exact .inr hzero
    · have hle := hlongest.2.2 (l ++ [b]) hlonger ⟨s ++ r, by simp [Token.text]⟩
      rw [List.length_append, List.length_singleton] at hle
      omega

end Grammar

variable {body : Bytes} {doc : Document Span} {l : Layout} {t u : Token} {g : Bytes}
  {before after : List (Token × Bytes)}

/-- A parsed text has one layout, and in it every token stands whole in front of what follows. -/
theorem Document.whole_of_parse (h : Document.parse body = .ok doc) (hbody : l.text = body)
    (hspells : doc.Spells l.tokens) (hitems : l.items = before ++ (t, g) :: after) :
    t.Whole (g ++ Layout.itemsText after) := by
  obtain ⟨l', d, hbody', hreading, hspells'⟩ := Document.exists_reading_of_parse h
  have hproper := Document.proper_of_parse h hspells
  obtain rfl := Document.layout_unique hspells hspells' hproper
    (Document.proper_of_parse h hspells') (hbody.trans hbody'.symm)
  have hlaid : Laid l.items := fun item hitem =>
    ⟨hproper item.1 (List.mem_map_of_mem hitem), l.gaps item hitem⟩
  have hskip : (Cursor.ofBody body).skipTrivia.rest = Layout.itemsText l.items := by
    rw [← hbody]
    exact congrArg Cursor.rest (Cursor.skipTrivia_eq l.lead_gap hlaid.not_startsTrivial 0)
  rw [Layout.placed, hitems] at hreading
  rw [hitems] at hskip hlaid
  exact hreading.whole_of_append hskip hlaid

/-- Two tokens of a parsed text between which there is no gap, the first one ending and the second
one starting with a letter, a digit or an underscore: the first one is a number, the longest one
that starts at its place, and the second one is a word or, behind a zero, a number. In particular no
word is split, nor any run that a word starts. -/
theorem Source.adjacent_tokens {s : Source} (h : s.parse = .ok doc) (htext : l.text = s.body)
    (hspells : doc.Spells l.tokens) (hitems : l.items = before ++ (t, []) :: (u, g) :: after)
    (ht : t.endsWord = true) (hu : u.startsWord = true) :
    ∃ n, t = .number n ∧ IsLongestNumber n (n ++ Layout.itemsText ((u, g) :: after)) ∧
      ((∃ w, u = .word w) ∨ ∃ k, u = .number k ∧ (n = bytes "0" ∨ n = bytes "-0")) := by
  have hparse := Source.parse_eq_ok_iff.mp h
  have hwhole := Document.whole_of_parse hparse htext hspells hitems
  have hproper : u.Proper :=
    Document.proper_of_parse hparse hspells u (by simp [Layout.tokens, hitems])
  rw [List.nil_append, Layout.itemsText_cons] at hwhole
  obtain ⟨n, rfl⟩ := hwhole.eq_number ht hu
  rw [Layout.itemsText_cons]
  exact ⟨n, rfl, hwhole.number_adjacent hproper hu⟩

/-- A list of two numbers, a zero and a one without a gap between them. -/
def zeroOneLayout : Layout where
  lead := []
  items := [(.word (bytes "input"), bytes " "), (.word (bytes "A"), bytes " "),
    (.mark (bytes "\x7b"), bytes " "), (.word (bytes "x"), []), (.mark (bytes ":"), bytes " "),
    (.mark (bytes "["), []), (.word (bytes "Int"), []), (.mark (bytes "]"), bytes " "),
    (.mark (bytes "="), bytes " "), (.mark (bytes "["), []), (.number (bytes "0"), []),
    (.number (bytes "1"), []), (.mark (bytes "]"), bytes " "), (.mark (bytes "\x7d"), [])]
  lead_gap := by decide
  gaps := by decide

theorem zeroOneLayout_spells :
    ∃ doc, (Source.mk (bytes "sample") zeroOneLayout.text).parse = .ok doc ∧
      doc.Spells zeroOneLayout.tokens := by
  refine ⟨_, rfl, ?_⟩
  unfold Document.Spells Node.Spells
  repeat first
    | exact .nil
    | refine .token ?_
    | refine .kept ?_
    | refine .of_parts ?_

theorem zeroOneLayout_items :
    zeroOneLayout.items = zeroOneLayout.items.take 10 ++
      (.number (bytes "0"), []) :: (.number (bytes "1"), []) :: zeroOneLayout.items.drop 12 := rfl

theorem zeroOneLayout_splits :
    ¬ ∀ (s : Source) (doc : Document Span) (l : Layout) (before after : List (Token × Bytes))
        (t u : Token) (g : Bytes),
      s.parse = .ok doc → l.text = s.body → doc.Spells l.tokens →
        l.items = before ++ (t, []) :: (u, g) :: after →
          ¬ (t.endsWord = true ∧ u.startsWord = true) := by
  intro h
  obtain ⟨doc, hparse, hspells⟩ := zeroOneLayout_spells
  exact h _ doc zeroOneLayout _ _ _ _ _ hparse rfl hspells zeroOneLayout_items ⟨rfl, rfl⟩

theorem zeroOneLayout_adjacent :
    ∃ doc, (Source.mk (bytes "sample") zeroOneLayout.text).parse = .ok doc ∧
      doc.Spells zeroOneLayout.tokens ∧
      (Token.number (bytes "0")).endsWord = true ∧ (Token.number (bytes "1")).startsWord = true ∧
      ∃ n, Token.number (bytes "0") = .number n ∧
        IsLongestNumber n
          (n ++ Layout.itemsText ((.number (bytes "1"), []) :: zeroOneLayout.items.drop 12)) ∧
        ((∃ w, Token.number (bytes "1") = .word w) ∨
          ∃ k, Token.number (bytes "1") = .number k ∧ (n = bytes "0" ∨ n = bytes "-0")) := by
  obtain ⟨doc, hparse, hspells⟩ := zeroOneLayout_spells
  exact ⟨doc, hparse, hspells, rfl, rfl,
    Source.adjacent_tokens hparse rfl hspells zeroOneLayout_items rfl rfl⟩

end SchemaDoc
