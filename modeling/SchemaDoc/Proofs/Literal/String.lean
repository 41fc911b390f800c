import SchemaDoc.Fault
import SchemaDoc.Proofs.Layout.Placement
import SchemaDoc.Proofs.Soundness.Values

/-! # String values

The literals of strings are the words of a regular language. They are exactly the
quotations of the texts without a line feed. A literal at the start of a text is a
value, or a failure if it holds a control character; where no literal starts, there
is no match.
-/

namespace SchemaDoc.Grammar

variable {c d m : Cursor} {l r s u v : Bytes}

/-- What stands between the quotes of a string literal: `(?: [^"\\\n] | \\\\ | \\" )*`. -/
inductive StringBody : Bytes → Prop where
  | nil : StringBody []
  | plain {b : UInt8} {s : Bytes} :
      b ≠ 0x22 → b ≠ 0x5C → b ≠ 0x0A → StringBody s → StringBody (b :: s)
  | backslash {s : Bytes} : StringBody s → StringBody (0x5C :: 0x5C :: s)
  | quote {s : Bytes} : StringBody s → StringBody (0x5C :: 0x22 :: s)

/-- The words `" (?: [^"\\\n] | \\\\ | \\" )* "`. -/
def IsString (l : Bytes) : Prop := ∃ s, StringBody s ∧ l = 0x22 :: (s ++ [0x22])

/-- A text with which a string literal can neither go on nor end: the end of the text, a line feed,
or a backslash in front of neither a backslash nor a quote. -/
def BreaksString (r : Bytes) : Prop :=
  r = [] ∨ (∃ s, r = 0x0A :: s) ∨ ∃ s, r = 0x5C :: s ∧ s.head? ≠ some 0x5C ∧ s.head? ≠ some 0x22

theorem stringBody_escape (hv : ∀ b ∈ v, b ≠ 0x0A) : StringBody (escape v) := by
  induction v with
  | nil => exact .nil
  | cons b v ih =>
    obtain ⟨hb, hv⟩ := List.forall_mem_cons.mp hv
    have hbody := ih hv
    rw [escape]
    split
    · next h =>
      rcases h with rfl | rfl
      · exact .backslash hbody
      · exact .quote hbody
    · next h => exact .plain (fun hq => h (.inr hq)) (fun hs => h (.inl hs)) hb hbody

theorem StringBody.exists_escape (h : StringBody s) :
    ∃ v, (∀ b ∈ v, b ≠ 0x0A) ∧ s = escape v := by
  induction h with
  | nil => exact ⟨[], by simp, rfl⟩
  | @plain b _ hquote hslash hline _ ih =>
    obtain ⟨v, hv, rfl⟩ := ih
    exact ⟨b :: v, List.forall_mem_cons.mpr ⟨hline, hv⟩, by simp [escape, hquote, hslash]⟩
  | backslash _ ih =>
    obtain ⟨v, hv, rfl⟩ := ih
    exact ⟨0x5C :: v, List.forall_mem_cons.mpr ⟨by decide, hv⟩, by simp [escape]⟩
  | quote _ ih =>
    obtain ⟨v, hv, rfl⟩ := ih
    exact ⟨0x22 :: v, List.forall_mem_cons.mpr ⟨by decide, hv⟩, by simp [escape]⟩

/-- The string literals are the quotations of the texts without a line feed. -/
theorem isString_iff : IsString l ↔ ∃ v, (∀ b ∈ v, b ≠ 0x0A) ∧ l = quote v := by
  constructor
  · rintro ⟨s, hs, rfl⟩
    obtain ⟨v, hv, rfl⟩ := hs.exists_escape
    exact ⟨v, hv, rfl⟩
  · rintro ⟨v, hv, rfl⟩
    exact ⟨escape v, stringBody_escape hv, rfl⟩

/-- Quoting makes no control character and loses none. -/
theorem any_control_quote (v : Bytes) : (quote v).any (· < 0x20) = v.any (· < 0x20) := by
  have hslash : decide ((0x5C : UInt8) < 0x20) = false := rfl
  have hquote : decide ((0x22 : UInt8) < 0x20) = false := rfl
  have hescape : (escape v).any (· < 0x20) = v.any (· < 0x20) := by
    induction v with
    | nil => rfl
    | cons b v ih =>
      rw [escape]
      split <;> simp only [List.any_cons, ih, hslash, Bool.false_or]
  rw [quote, List.any_cons, List.any_append, hescape, hquote, Bool.false_or, List.any_cons, hquote,
    List.any_nil, Bool.or_false, Bool.or_false]

theorem StringBody.stringTail?_append (h : StringBody u) (hr : Lexeme.stringTail? r = none) :
    Lexeme.stringTail? (u ++ r) = none := by
  induction h with
  | nil => exact hr
  | plain hquote hslash hline _ ih =>
    rw [List.cons_append, Lexeme.stringTail?, ih]
    · rfl
    all_goals simp_all
  | backslash _ ih => simp [Lexeme.stringTail?, ih]
  | quote _ ih => simp [Lexeme.stringTail?, ih]

theorem BreaksString.stringTail? (h : BreaksString r) : Lexeme.stringTail? r = none := by
  rcases h with rfl | ⟨s, rfl⟩ | ⟨s, rfl, hslash, hquote⟩
  · rfl
  · rfl
  · cases s with
    | nil => rfl
    | cons b s => simp_all [Lexeme.stringTail?]

/-- A string literal that was begun does not end exactly if the text breaks it somewhere. -/
theorem stringTail?_eq_none_iff :
    Lexeme.stringTail? s = none ↔ ∃ u r, s = u ++ r ∧ StringBody u ∧ BreaksString r := by
  constructor
  · intro h
    fun_induction Lexeme.stringTail? s with
    | case1 => exact ⟨[], [], rfl, .nil, .inl rfl⟩
    | case2 s => simp at h
    | case3 s => exact ⟨[], _, rfl, .nil, .inr (.inl ⟨s, rfl⟩)⟩
    | case4 s ih =>
      obtain ⟨u, r, rfl, hu, hr⟩ := ih (Option.map_eq_none_iff.mp h)
      exact ⟨0x5C :: 0x5C :: u, r, rfl, .backslash hu, hr⟩
    | case5 s ih =>
      obtain ⟨u, r, rfl, hu, hr⟩ := ih (Option.map_eq_none_iff.mp h)
      exact ⟨0x5C :: 0x22 :: u, r, rfl, .quote hu, hr⟩
    | case6 s hslash hquote =>
      refine ⟨[], _, rfl, .nil, .inr (.inr ⟨s, rfl, ?_, ?_⟩)⟩
      · cases s with
        | nil => simp
        | cons b s => simpa using fun hb => hslash s (by rw [hb])
      · cases s with
        | nil => simp
        | cons b s => simpa using fun hb => hquote s (by rw [hb])
    | case7 b s hquote hline _ _ hslash ih =>
      obtain ⟨u, r, rfl, hu, hr⟩ := ih (Option.map_eq_none_iff.mp h)
      exact ⟨b :: u, r, rfl, .plain hquote hslash hline hu, hr⟩
  · rintro ⟨u, r, rfl, hu, hr⟩
    exact hu.stringTail?_append hr.stringTail?

theorem string?_eq_none_iff :
    Lexeme.string? s = none ↔
      s.head? ≠ some 0x22 ∨ ∃ u r, s = 0x22 :: (u ++ r) ∧ StringBody u ∧ BreaksString r := by
  cases s with
  | nil => simp [Lexeme.string?]
  | cons b s =>
    by_cases hb : b = 0x22
    · subst hb
      simpa [Lexeme.string?] using stringTail?_eq_none_iff
    · simp [Lexeme.string?, hb]

theorem isString_and_takes_iff :
    IsString l ∧ c.Takes l m ↔ ∃ v, l = quote v ∧ (Token.string v).Reads c m := by
  rw [isString_iff]
  constructor
  · rintro ⟨⟨v, hv, rfl⟩, h⟩
    exact ⟨v, rfl, h, hv⟩
  · rintro ⟨v, rfl, h, hv⟩
    exact ⟨⟨v, hv, rfl⟩, h⟩

/-- A literal is a value, or a failure if it holds a control character. -/
theorem stringValue_of_reads (h : (Token.string v).Reads c m) :
    stringValue c =
      if v.any (· < 0x20) then .failed ⟨c.skipTrivia.offset, .invalidString (quote v)⟩
      else .matched (.string ⟨c.skipTrivia.offset, c.skipTrivia.offset + (quote v).length⟩ v)
        m.skipTrivia := by
  have hreads : (Token.string v).Reads c.skipTrivia m := h.congr (by simp)
  have hlexeme := Token.lexeme?_string_eq_some_iff.mpr ⟨v, rfl, hreads⟩
  cases hcontrol : v.any (· < 0x20) with
  | true =>
    simp [stringValue, positioned, hlexeme, any_control_quote, hcontrol, Cursor.fail,
      Outcome.andThen, Outcome.backTo]
  | false =>
    rw [stringValue, positioned_of_matched (f := fun loc => .string loc v) (m := m) ?_ ⟨_, h.1⟩,
      h.spanTo_eq]
    · rfl
    · simp only [hlexeme, any_control_quote, hcontrol, Bool.false_eq_true, if_false, inner_quote,
        unescape_escape]

theorem stringValue_of_not_reads (h : ¬ ∃ v m, (Token.string v).Reads c m) :
    stringValue c = .noMatch c := by
  have hlexeme : c.skipTrivia.lexeme? .string = none := by
    rw [Option.eq_none_iff_forall_ne_some]
    rintro ⟨l, m⟩ hl
    obtain ⟨v, -, hv⟩ := Token.lexeme?_string_eq_some_iff.mp hl
    exact h ⟨v, m, hv.congr (by simp)⟩
  exact positioned_of_noMatch (d := c.skipTrivia) (by simp [hlexeme])

theorem not_reads_string_iff :
    (¬ ∃ v m, (Token.string v).Reads c m) ↔ Lexeme.string? c.skipTrivia.rest = none := by
  have hlexeme : c.lexeme? .string = none ↔ Lexeme.string? c.skipTrivia.rest = none :=
    Option.map_eq_none_iff
  rw [← hlexeme, Option.eq_none_iff_forall_ne_some]
  constructor
  · rintro h ⟨l, m⟩ hl
    obtain ⟨v, -, hv⟩ := Token.lexeme?_string_eq_some_iff.mp hl
    exact h ⟨v, m, hv⟩
  · rintro h ⟨v, m, hv⟩
    exact h _ (Token.lexeme?_string_eq_some_iff.mpr ⟨v, rfl, hv⟩)

theorem stringValue_eq_matched_iff {x : Value Span} :
    stringValue c = .matched x d ↔
      ∃ v m, (∀ b ∈ v, 0x20 ≤ b) ∧ c.Takes (quote v) m ∧ d = m.skipTrivia ∧
        x = .string ⟨c.skipTrivia.offset, c.skipTrivia.offset + (quote v).length⟩ v := by
  constructor
  · intro h
    by_cases hreads : ∃ v m, (Token.string v).Reads c m
    · obtain ⟨v, m, hv⟩ := hreads
      rw [stringValue_of_reads hv] at h
      split at h
      · simp at h
      · next hcontrol =>
        obtain ⟨rfl, rfl⟩ := Outcome.matched.inj h
        exact ⟨v, m, by simpa using hcontrol, hv.1, rfl, rfl⟩
    · simp [stringValue_of_not_reads hreads] at h
  · rintro ⟨v, m, hv, htakes, rfl, rfl⟩
    have hline : ∀ b ∈ v, b ≠ 0x0A := by
      rintro b hb rfl
      exact absurd (hv _ hb) (by decide)
    rw [stringValue_of_reads ⟨htakes, hline⟩, if_neg (by simpa using hv)]

theorem stringValue_eq_failed_iff {e : SyntaxError} :
    stringValue c = .failed e ↔
      ∃ l m, IsString l ∧ c.Takes l m ∧ (∃ b ∈ l, b < 0x20) ∧
        e = ⟨c.skipTrivia.offset, .invalidString l⟩ := by
  have control (v : Bytes) : (∃ b ∈ quote v, b < 0x20) ↔ v.any (· < 0x20) = true := by
    rw [← any_control_quote, List.any_eq_true]
    simp only [decide_eq_true_eq]
  constructor
  · intro h
    by_cases hreads : ∃ v m, (Token.string v).Reads c m
    · obtain ⟨v, m, hv⟩ := hreads
      rw [stringValue_of_reads hv] at h
      split at h
      · next hcontrol =>
        obtain ⟨hl, hm⟩ := isString_and_takes_iff.mpr ⟨v, rfl, hv⟩
        exact ⟨quote v, m, hl, hm, (control v).mpr hcontrol, (Outcome.failed.inj h).symm⟩
      · simp at h
    · simp [stringValue_of_not_reads hreads] at h
  · rintro ⟨l, m, hl, hm, hcontrol, rfl⟩
    obtain ⟨v, rfl, hv⟩ := isString_and_takes_iff.mp ⟨hl, hm⟩
    rw [stringValue_of_reads hv, if_pos ((control v).mp hcontrol)]

theorem stringValue_eq_noMatch_iff :
    stringValue c = .noMatch c ↔ ¬ ∃ v m, (Token.string v).Reads c m := by
  constructor
  · rintro h ⟨v, m, hv⟩
    rw [stringValue_of_reads hv] at h
    split at h <;> simp at h
  · exact stringValue_of_not_reads

/-- Texts without control characters and their quotations correspond, whatever stands behind a
quotation. A literal that holds a control character is a failure; where no literal starts, since
there is no quote or the literal that it begins is broken, there is no match. -/
theorem stringValue_exact (c : Cursor) :
    (∀ s r : Bytes, (∀ b ∈ s, 0x20 ≤ b) →
      stringValue (.ofBody (quote s ++ r)) =
        .matched (.string ⟨0, (quote s).length⟩ s) (Cursor.mk (quote s).length r).skipTrivia) ∧
    (∀ x d, stringValue c = .matched x d ↔
      ∃ s m, (∀ b ∈ s, 0x20 ≤ b) ∧ c.Takes (quote s) m ∧ d = m.skipTrivia ∧
        x = .string ⟨c.skipTrivia.offset, c.skipTrivia.offset + (quote s).length⟩ s) ∧
    (∀ e, stringValue c = .failed e ↔
      ∃ l m, IsString l ∧ c.Takes l m ∧ (∃ b ∈ l, b < 0x20) ∧
        e = ⟨c.skipTrivia.offset, .invalidString l⟩) ∧
    (∀ e, stringValue c = .failed e → e.cause.code = bytes "S0006") ∧
    (stringValue c = .noMatch c ↔ ¬ ∃ l m, IsString l ∧ c.Takes l m) ∧
    (stringValue c = .noMatch c ↔
      c.skipTrivia.rest.head? ≠ some 0x22 ∨
        ∃ u r, c.skipTrivia.rest = 0x22 :: (u ++ r) ∧ StringBody u ∧ BreaksString r) := by
  refine ⟨fun s r hs => ?_, fun _ _ => stringValue_eq_matched_iff,
    fun _ => stringValue_eq_failed_iff, fun e he => ?_, ?_, ?_⟩
  · have hskip : (Cursor.ofBody (quote s ++ r)).skipTrivia = .ofBody (quote s ++ r) :=
      Cursor.skipTrivia_of_not_startsTrivial (not_startsTrivial_of_ascii (by decide) rfl)
    refine stringValue_eq_matched_iff.mpr ⟨s, ⟨(quote s).length, r⟩, hs, ?_, rfl, ?_⟩
    · rw [Cursor.Takes, hskip]
      exact ⟨rfl, (Nat.zero_add _).symm⟩
    · rw [hskip]
      simp [Cursor.ofBody]
  · obtain ⟨l, m, -, -, -, rfl⟩ := stringValue_eq_failed_iff.mp he
    rfl
  · rw [stringValue_eq_noMatch_iff]
    refine not_congr ⟨?_, ?_⟩
    · rintro ⟨v, m, hv⟩
      exact ⟨quote v, m, isString_and_takes_iff.mpr ⟨v, rfl, hv⟩⟩
    · rintro ⟨l, m, h⟩
      obtain ⟨v, -, hv⟩ := isString_and_takes_iff.mp h
      exact ⟨v, m, hv⟩
  · rw [stringValue_eq_noMatch_iff, not_reads_string_iff, string?_eq_none_iff]

/-- A text of a quote and a backslash, read back from its literal in front of another quote. -/
theorem stringValue_exact_quotes :
    (∀ b ∈ bytes "\"\\", 0x20 ≤ b) ∧
      stringValue (.ofBody (bytes "\"\\\"\\\\\", \"")) =
        .matched (.string ⟨0, 6⟩ (bytes "\"\\")) ⟨8, bytes "\""⟩ :=
  ⟨by decide +kernel,
    (stringValue_exact (.ofBody [])).1 (bytes "\"\\") (bytes ", \"") (by decide +kernel)⟩

end SchemaDoc.Grammar
