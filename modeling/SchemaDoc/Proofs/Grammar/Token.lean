import SchemaDoc.Grammar.Rule
import SchemaDoc.Proofs.Grammar.Numeral
import SchemaDoc.Proofs.Grammar.Quotation
import SchemaDoc.Proofs.Grammar.Trivia

/-! # Tokens

A token is a mark, a word, a number, a string or a comment. It stands whole in
front of a text when that text cannot go on with it. Every token starts with a
byte that is no trivia, and only a comment can end with trivia.
-/

namespace SchemaDoc.Grammar

namespace Lexeme

variable {n : Nat} {s : Bytes}

/-- A lexeme is a part of the text. -/
theorem length?_le {l : Lexeme} (h : l.length? s = some n) : n ≤ s.length := by
  cases l with
  | name =>
    obtain ⟨t, r, rfl, -, -, rfl⟩ := exists_of_name? h
    simp
  | number =>
    obtain ⟨t, r, rfl, -, rfl⟩ := exists_of_number? h
    simp
  | string =>
    obtain ⟨t, r, rfl, -, rfl⟩ := exists_of_string? h
    simp
  | comment =>
    obtain ⟨t, r, rfl, -, -, rfl⟩ := exists_of_comment? h
    simp

/-- The bytes that start a lexeme of the class. -/
def starts : Lexeme → UInt8 → Bool
  | .name, b => isNameStart b
  | .number, b => b == 0x2D || Bytes.isDigit b
  | .string, b => b == 0x22
  | .comment, b => b == 0x23

theorem exists_first {l : Lexeme} (h : l.length? s = some n) :
    ∃ b r, s = b :: r ∧ l.starts b = true := by
  cases l with
  | name =>
    obtain ⟨t, r, rfl, ht, -, -⟩ := exists_of_name? h
    cases t with
    | nil => exact ht.elim
    | cons b t => exact ⟨b, t ++ r, rfl, ht.1⟩
  | number =>
    obtain ⟨t, r, rfl, ⟨minus, whole, fraction, exponent, hminus, hwhole, -, -, rfl⟩, -⟩ :=
      exists_of_number? h
    rcases hminus with rfl | rfl
    · rcases hwhole with rfl | ⟨d, ds, rfl, -, hds⟩
      · exact ⟨0x30, _, rfl, rfl⟩
      · exact ⟨d, _, rfl, by simp [starts, hds d (by simp)]⟩
    · exact ⟨0x2D, _, rfl, rfl⟩
  | string =>
    obtain ⟨t, r, rfl, -, -⟩ := exists_of_string? h
    exact ⟨0x22, _, rfl, rfl⟩
  | comment =>
    obtain ⟨t, r, rfl, ⟨s, rfl, -⟩, -, -⟩ := exists_of_comment? h
    exact ⟨0x23, _, rfl, rfl⟩

/-- No lexeme goes on behind a line feed, and none is ended by one that is not ended without. -/
theorem length?_append_line (l : Lexeme) (s r : Bytes) :
    l.length? (s ++ 0x0A :: r) = l.length? s := by
  cases l with
  | name => exact name?_append_line s r
  | number => exact number?_append_line s r
  | string => exact string?_append_line s r
  | comment => exact comment?_append_line s r

end Lexeme

inductive Token where
  | mark (text : Bytes)
  | word (text : Bytes)
  | number (literal : Bytes)
  | string (text : Bytes)
  | comment (text : Bytes)
deriving DecidableEq, Repr

/-- The punctuation: characters that are tokens on their own. -/
def marks : List Bytes :=
  [bytes "\x7b", bytes "\x7d", bytes "(", bytes ")", bytes "[", bytes "]", bytes ":", bytes "=",
    bytes "|", bytes "!", bytes "$"]

/-- A byte that is a character on its own and no trivia. -/
def IsPlain (b : UInt8) : Prop := b.toNat < 0x80 ∧ isTrivia b.toNat = false

instance (b : UInt8) : Decidable (IsPlain b) := inferInstanceAs (Decidable (_ ∧ _))

namespace Token

variable {t : Token} {r : Bytes}

def text : Token → Bytes
  | mark text => text
  | word text => text
  | number literal => literal
  | string text => quote text
  | comment text => text

/-- The text of a token without the trivia at its end, which only a comment can have. -/
def trimmed : Token → Bytes
  | comment text => trimRight text
  | t => t.text

/-- The token is a token of its kind on its own, whatever stands behind it. -/
def Proper : Token → Prop
  | mark text => text ∈ marks
  | word text => IsIdentifier text
  | number literal => IsNumber literal
  | string text => ∀ b ∈ text, b ≠ 0x0A
  | comment text => IsComment text

/-- The token is read whole when `r` stands directly behind it. -/
def Whole : Token → Bytes → Prop
  | mark text, _ => text ∈ marks
  | word text, r => IsIdentifier text ∧ Stops isNameContinue r
  | number literal, r => Lexeme.number? (literal ++ r) = some literal.length
  | string text, _ => ∀ b ∈ text, b ≠ 0x0A
  | comment text, r => IsComment text ∧ Stops (fun b => !isLineEnd b) r

theorem isNumber_of_number? {s : Bytes} (h : Lexeme.number? (s ++ r) = some s.length) :
    IsNumber s := by
  obtain ⟨u, v, huv, hu, hlen⟩ := Lexeme.exists_of_number? h
  have := (List.append_inj huv hlen.symm).1
  rwa [this]

theorem isNameContinue_of_isNameStart {b : UInt8} (h : isNameStart b = true) :
    isNameContinue b = true := by
  rcases Bool.or_eq_true_iff.mp h with h | h <;> simp [isNameContinue, h]

theorem isPlain_of_isNameContinue {b : UInt8} (h : isNameContinue b = true) : IsPlain b := by
  simp only [isNameContinue, Bytes.isDigit, Bytes.isLetter, Bytes.isUpper, Bytes.isLower,
    Bool.or_eq_true, Bool.and_eq_true, decide_eq_true_eq, beq_iff_eq, UInt8.le_iff_toNat_le,
    UInt8.reduceToNat, ← UInt8.toNat_inj] at h
  simp only [IsPlain, isTrivia, isNewline, isComma, isWhitespace, Bool.or_eq_false_iff,
    Bool.and_eq_false_iff, beq_eq_false_iff_ne, decide_eq_false_iff_not]
  omega

theorem isPlain_of_isDigit {b : UInt8} (h : Bytes.isDigit b = true) : IsPlain b :=
  isPlain_of_isNameContinue (by simp [isNameContinue, h])

theorem exists_of_mem_marks {s : Bytes} (h : s ∈ marks) : ∃ b, s = [b] ∧ IsPlain b := by
  simp only [marks, List.mem_cons, List.not_mem_nil, or_false] at h
  rcases h with rfl | rfl | rfl | rfl | rfl | rfl | rfl | rfl | rfl | rfl | rfl <;>
    exact ⟨_, rfl, by decide⟩

private theorem exists_last {p : UInt8 → Bool} {s : Bytes} (hne : s ≠ [])
    (h : ∀ b ∈ s, p b = true) : ∃ u b, s = u ++ [b] ∧ p b = true :=
  ⟨s.dropLast, s.getLast hne, (List.dropLast_concat_getLast hne).symm, h _ (List.getLast_mem hne)⟩

theorem exists_last_of_isIdentifier {s : Bytes} (h : IsIdentifier s) :
    ∃ u b, s = u ++ [b] ∧ isNameContinue b = true := by
  cases s with
  | nil => exact h.elim
  | cons b s =>
    have hall : ∀ x ∈ b :: s, isNameContinue x = true := by
      simpa [isNameContinue_of_isNameStart h.1] using h.2
    exact exists_last (by simp) hall

theorem exists_last_of_isNumber {s : Bytes} (h : IsNumber s) :
    ∃ u b, s = u ++ [b] ∧ Bytes.isDigit b = true := by
  obtain ⟨minus, whole, fraction, exponent, -, hwhole, hfraction, hexponent, rfl⟩ := h
  rcases hexponent with rfl | ⟨mark, sign, ds, -, -, ⟨hne, hds⟩, rfl⟩
  · rcases hfraction with rfl | ⟨ds, ⟨hne, hds⟩, rfl⟩
    · rcases hwhole with rfl | ⟨d, ds, rfl, -, hds⟩
      · exact ⟨minus, 0x30, by simp, rfl⟩
      · obtain ⟨u, b, hu, hb⟩ := exists_last (by simp) hds
        exact ⟨minus ++ u, b, by simp [hu], hb⟩
    · obtain ⟨u, b, rfl, hb⟩ := exists_last hne hds
      exact ⟨minus ++ (whole ++ 0x2E :: u), b, by simp, hb⟩
  · obtain ⟨u, b, rfl, hb⟩ := exists_last hne hds
    exact ⟨minus ++ (whole ++ (fraction ++ mark :: (sign ++ u))), b, by simp, hb⟩

private theorem exists_first_of_isNumber {s : Bytes} (h : IsNumber s) :
    ∃ b u, s = b :: u ∧ IsPlain b ∧ b ≠ 0x2E := by
  obtain ⟨b, u, rfl, hb⟩ := Lexeme.exists_first (l := .number) (Lexeme.isNumber_iff.mp h)
  refine ⟨b, u, rfl, ?_, ?_⟩
  · rcases Bool.or_eq_true_iff.mp hb with hminus | hdigit
    · rw [eq_of_beq hminus]
      decide
    · exact isPlain_of_isDigit hdigit
  · rintro rfl
    exact absurd hb (by decide)

theorem Whole.proper (h : t.Whole r) : t.Proper := by
  cases t with
  | mark text => exact h
  | word text => exact h.1
  | number literal => exact isNumber_of_number? h
  | string text => exact h
  | comment text => exact h.1

/-- A token starts with no trivia, and no token starts with a point. -/
theorem Proper.exists_first (h : t.Proper) :
    ∃ b s, t.text = b :: s ∧ IsPlain b ∧ b ≠ 0x2E := by
  cases t with
  | mark text =>
    obtain ⟨b, rfl, hb⟩ := exists_of_mem_marks h
    refine ⟨b, [], rfl, hb, ?_⟩
    rintro rfl
    exact absurd (show [0x2E] ∈ marks from h) (by decide)
  | word text =>
    cases text with
    | nil => exact h.elim
    | cons b s =>
      have hb := isNameContinue_of_isNameStart h.1
      exact ⟨b, s, rfl, isPlain_of_isNameContinue hb, by rintro rfl; exact absurd hb (by decide)⟩
  | number literal => exact exists_first_of_isNumber h
  | string text => exact ⟨0x22, _, rfl, by decide, by decide⟩
  | comment text =>
    obtain ⟨s, rfl, -⟩ := h
    exact ⟨0x23, s, rfl, by decide, by decide⟩

theorem Whole.exists_first (h : t.Whole r) : ∃ b s, t.text = b :: s ∧ IsPlain b := by
  obtain ⟨b, s, hs, hb, -⟩ := h.proper.exists_first
  exact ⟨b, s, hs, hb⟩

theorem Whole.trimRight_text (h : t.Whole r) : trimRight t.text = t.trimmed := by
  have last {s u : Bytes} {b : UInt8} (hs : s = u ++ [b]) (hb : IsPlain b) : trimRight s = s := by
    rw [hs]
    exact trimRight_eq_self (not_endsTrivial_of_ascii hb.1 hb.2)
  cases t with
  | mark text =>
    obtain ⟨b, rfl, hb⟩ := exists_of_mem_marks h
    exact last (u := []) rfl hb
  | word text =>
    obtain ⟨u, x, hs, hx⟩ := exists_last_of_isIdentifier h.1
    exact last hs (isPlain_of_isNameContinue hx)
  | number literal =>
    obtain ⟨u, b, hs, hb⟩ := exists_last_of_isNumber (isNumber_of_number? h)
    exact last hs (isPlain_of_isDigit hb)
  | string text => exact last (u := 0x22 :: escape text) rfl (by decide)
  | comment text => rfl

theorem trimRight_cons_ne_nil {b : UInt8} (hb : IsPlain b) (s : Bytes) :
    trimRight (b :: s) ≠ [] := by
  intro h
  obtain ⟨-, g, hg, hs⟩ := trimRight_spec (b :: s)
  rw [h, List.nil_append] at hs
  rw [← hs] at hg
  exact absurd (hg.not_ascii_cons hb.1) (by simp [hb.2])

theorem Whole.trimmed_ne_nil (h : t.Whole r) : t.trimmed ≠ [] := by
  obtain ⟨b, s, ht, hb⟩ := h.exists_first
  rw [← h.trimRight_text, ht]
  exact trimRight_cons_ne_nil hb s

theorem Whole.trimmed_length_le (h : t.Whole r) : t.trimmed.length ≤ t.text.length := by
  obtain ⟨-, g, -, hs⟩ := trimRight_spec t.text
  rw [h.trimRight_text] at hs
  rw [hs, List.length_append]
  omega

theorem Whole.not_startsTrivial (h : t.Whole r) (s : Bytes) : ¬ StartsTrivial (t.text ++ s) := by
  obtain ⟨b, u, ht, hb⟩ := h.exists_first
  rw [ht]
  exact not_startsTrivial_of_ascii hb.1 hb.2

private theorem stops_append_line {p : UInt8 → Bool} (h : Stops p r) (hp : p 0x0A = false)
    (s : Bytes) : Stops p (r ++ 0x0A :: s) := by
  cases r with
  | nil => exact hp
  | cons b r => exact h

/-- A token that is whole stays whole when a new line is begun behind the text. -/
theorem Whole.append_line (h : t.Whole r) (s : Bytes) : t.Whole (r ++ 0x0A :: s) := by
  cases t with
  | mark text => exact h
  | word text => exact ⟨h.1, stops_append_line h.2 rfl s⟩
  | number literal =>
    have h' := Lexeme.number?_append_line (literal ++ r) s
    rw [show Lexeme.number? (literal ++ r) = _ from h, List.append_assoc] at h'
    exact h'
  | string text => exact h
  | comment text => exact ⟨h.1, stops_append_line h.2 rfl s⟩

/-- A token that is whole in front of a text is whole also in front of a beginning of it. -/
theorem Whole.of_append {s : Bytes} (h : t.Whole (r ++ s)) : t.Whole r := by
  cases t with
  | mark text => exact h
  | word text => exact ⟨h.1, h.2.of_append⟩
  | number literal => exact Lexeme.number?_of_append h
  | string text => exact h
  | comment text => exact ⟨h.1, h.2.of_append⟩

end Token

/-- A comment without the trivia at its end is a comment. -/
theorem IsComment.trimRight {s : Bytes} (h : IsComment s) : IsComment (trimRight s) := by
  obtain ⟨u, rfl, hu⟩ := h
  obtain ⟨-, g, -, hg⟩ := trimRight_spec (0x23 :: u)
  cases ht : Grammar.trimRight (0x23 :: u) with
  | nil => exact absurd ht (Token.trimRight_cons_ne_nil (by decide) u)
  | cons b v =>
    rw [ht] at hg
    obtain ⟨rfl, rfl⟩ := List.cons.inj hg
    exact ⟨v, rfl, (List.forall_mem_append.mp hu).1⟩

end SchemaDoc.Grammar
