import Mathlib.Algebra.Order.Field.Power
import Mathlib.Data.Rat.Cast.Order
import Mathlib.Tactic.FieldSimp
import Mathlib.Tactic.Ring
import SchemaDoc.Fault
import SchemaDoc.Proofs.Grammar.Outcome
import SchemaDoc.Proofs.Layout.Placement
import SchemaDoc.Proofs.Text.Decimal

/-! # Number values

A number literal has a sign, a whole part, the digits of a fraction and an
exponent. It denotes a rational number, which is kept as an integer times a power
of ten. The rule for numbers reads the longest literal that the text starts with
and fails where an exponent does not fit in 32 bits, and only there.
-/

namespace SchemaDoc.Grammar

variable {c d m : Cursor} {l r s t : Bytes}

/-- The exponent of a number literal. -/
structure ExponentPart where
  mark : UInt8
  sign : Bytes
  digits : Bytes
  mark_isMark : isExponentMark mark = true
  sign_isSign : IsSign sign
  digits_isDigits : IsDigits digits

/-- A number literal in its parts. Without a point there are no digits of a fraction. -/
structure NumberLiteral where
  negative : Bool
  whole : Bytes
  fraction : Bytes
  exponent : Option ExponentPart
  whole_isWhole : IsWhole whole
  fraction_isDigit : ∀ b ∈ fraction, Bytes.isDigit b = true

namespace ExponentPart

def text (e : ExponentPart) : Bytes := e.mark :: (e.sign ++ e.digits)

def value (e : ExponentPart) : ℤ :=
  if e.sign = [0x2D] then -(Bytes.digitsValue e.digits) else Bytes.digitsValue e.digits

end ExponentPart

namespace NumberLiteral

variable {n : NumberLiteral}

def minusText (n : NumberLiteral) : Bytes := if n.negative then [0x2D] else []

def fractionText (n : NumberLiteral) : Bytes :=
  if n.fraction = [] then [] else 0x2E :: n.fraction

def exponentText (n : NumberLiteral) : Bytes := n.exponent.elim [] ExponentPart.text

def text (n : NumberLiteral) : Bytes :=
  n.minusText ++ (n.whole ++ (n.fractionText ++ n.exponentText))

def sign (n : NumberLiteral) : ℤ := if n.negative then -1 else 1

/-- The exponent as it is written, zero if there is none. -/
def writtenExponent (n : NumberLiteral) : ℤ := n.exponent.elim 0 ExponentPart.value

/-- The number that the literal denotes. -/
def value (n : NumberLiteral) : ℚ :=
  n.sign * (Bytes.digitsValue n.whole +
    Bytes.digitsValue n.fraction / 10 ^ n.fraction.length) * 10 ^ n.writtenExponent

/-- All digits as an integer with the sign of the literal. -/
def coefficient (n : NumberLiteral) : ℤ := n.sign * Bytes.digitsValue (n.whole ++ n.fraction)

/-- The power of ten for the coefficient. -/
def power (n : NumberLiteral) : ℤ := n.writtenExponent - n.fraction.length

/-- Both the written and the resulting exponent are numbers of 32 bits. -/
def Fits (n : NumberLiteral) : Prop :=
  (-2 ^ 31 ≤ n.writtenExponent ∧ n.writtenExponent ≤ 2 ^ 31 - 1) ∧
    (-2 ^ 31 ≤ n.power ∧ n.power ≤ 2 ^ 31 - 1)

instance : Decidable n.Fits := inferInstanceAs (Decidable (_ ∧ _))

theorem coefficient_mul_power (n : NumberLiteral) :
    (n.coefficient : ℚ) * 10 ^ n.power = n.value := by
  have hten : (10 : ℚ) ≠ 0 := by decide
  rw [coefficient, power, value, Bytes.digitsValue_append, zpow_sub₀ hten, zpow_natCast]
  push_cast
  field_simp

theorem isMinus_minusText (n : NumberLiteral) : IsMinus n.minusText := by
  rw [minusText]
  split
  · exact .inr rfl
  · exact .inl rfl

theorem isFraction_fractionText (n : NumberLiteral) : IsFraction n.fractionText := by
  rw [fractionText]
  split
  · exact .inl rfl
  · next h => exact .inr ⟨n.fraction, ⟨h, n.fraction_isDigit⟩, rfl⟩

theorem isExponent_exponentText (n : NumberLiteral) : IsExponent n.exponentText := by
  rw [exponentText]
  cases n.exponent with
  | none => exact .inl rfl
  | some e =>
    exact .inr ⟨e.mark, e.sign, e.digits, e.mark_isMark, e.sign_isSign, e.digits_isDigits, rfl⟩

private theorem exists_text_eq (h : IsNumber t) : ∃ n : NumberLiteral, n.text = t := by
  obtain ⟨minus, whole, fraction, exponent, hminus, hwhole, hfraction, hexponent, rfl⟩ := h
  obtain ⟨negative, hnegative⟩ : ∃ negative : Bool, (if negative then [0x2D] else []) = minus := by
    rcases hminus with rfl | rfl
    · exact ⟨false, rfl⟩
    · exact ⟨true, rfl⟩
  obtain ⟨digits, hdigits, hpoint⟩ : ∃ digits : Bytes, (∀ b ∈ digits, Bytes.isDigit b = true) ∧
      (if digits = [] then [] else 0x2E :: digits) = fraction := by
    rcases hfraction with rfl | ⟨ds, ⟨hne, hds⟩, rfl⟩
    · exact ⟨[], by simp, rfl⟩
    · exact ⟨ds, hds, if_neg hne⟩
  obtain ⟨part, hpart⟩ : ∃ part : Option ExponentPart,
      part.elim [] ExponentPart.text = exponent := by
    rcases hexponent with rfl | ⟨mark, sign, ds, hmark, hsign, hds, rfl⟩
    · exact ⟨none, rfl⟩
    · exact ⟨some ⟨mark, sign, ds, hmark, hsign, hds⟩, rfl⟩
  refine ⟨⟨negative, whole, digits, part, hwhole, hdigits⟩, ?_⟩
  rw [text, minusText, fractionText, exponentText, hnegative, hpoint, hpart]

/-- The grammar of numbers has the texts of literals and no others. -/
theorem isNumber_iff_exists_text : IsNumber t ↔ ∃ n : NumberLiteral, n.text = t := by
  refine ⟨exists_text_eq, ?_⟩
  rintro ⟨n, rfl⟩
  exact ⟨_, _, _, _, n.isMinus_minusText, n.whole_isWhole, n.isFraction_fractionText,
    n.isExponent_exponentText, rfl⟩

theorem signedValue_of_isDigit (h : ∀ b ∈ s, Bytes.isDigit b = true) :
    Decimal.signedValue s = Bytes.digitsValue s := by
  cases s with
  | nil => rfl
  | cons b s =>
    have hb := h b (by simp)
    have hplus : b ≠ 0x2B := by
      rintro rfl
      exact absurd hb (by decide)
    rw [Decimal.signedValue]
    · simpa using fun h => absurd h (ne_of_isDigit hb).1
    · simpa using fun h => absurd h hplus

theorem signedValue_exponentText (n : NumberLiteral) :
    Decimal.signedValue (n.exponentText.drop 1) = n.writtenExponent := by
  rw [exponentText, writtenExponent]
  cases n.exponent with
  | none => rfl
  | some e =>
    rw [Option.elim_some, Option.elim_some, ExponentPart.text, List.drop_succ_cons, List.drop_zero,
      ExponentPart.value]
    rcases e.sign_isSign with hsign | hsign | hsign
    · simp [hsign, signedValue_of_isDigit e.digits_isDigits.2]
    · simp [hsign, Decimal.signedValue]
    · simp [hsign, Decimal.signedValue]

theorem signedValue_minusText_append (h : ∀ b ∈ s, Bytes.isDigit b = true) :
    Decimal.signedValue (n.minusText ++ s) = n.sign * Bytes.digitsValue s := by
  rw [minusText, sign]
  cases n.negative with
  | false => simp [signedValue_of_isDigit h]
  | true => simp [Decimal.signedValue]

private theorem ofLiteral?_of_cut {mantissa exponent whole fraction : Bytes}
    (hmantissa : l.takeWhile (!isExponentMark ·) = mantissa)
    (hexponent : l.dropWhile (!isExponentMark ·) = exponent)
    (hwhole : mantissa.takeWhile (· != 0x2E) = whole)
    (hfraction : mantissa.dropWhile (· != 0x2E) = fraction) :
    Decimal.ofLiteral? l =
      if Decimal.exponentFits (Decimal.signedValue (exponent.drop 1)) &&
          Decimal.exponentFits
            (Decimal.signedValue (exponent.drop 1) - (fraction.drop 1).length) then
        some ⟨Decimal.signedValue (whole ++ fraction.drop 1),
          Decimal.signedValue (exponent.drop 1) - (fraction.drop 1).length⟩
      else none := by
  subst hmantissa hexponent hwhole hfraction
  rfl

/-- A literal is kept as its coefficient and its power of ten, if they fit. -/
theorem ofLiteral?_text (n : NumberLiteral) :
    Decimal.ofLiteral? n.text = if n.Fits then some ⟨n.coefficient, n.power⟩ else none := by
  have hwhole := (isDigits_of_isWhole n.whole_isWhole).2
  have hplain : ∀ b ∈ n.minusText ++ n.whole, b ≠ 0x2E ∧ isExponentMark b = false := by
    intro b hb
    rcases List.mem_append.mp hb with hb | hb
    · have hminus : b = 0x2D := by
        rw [minusText] at hb
        split at hb <;> simp_all
      rw [hminus]
      decide
    · exact (ne_of_isDigit (hwhole b hb)).2
  obtain ⟨htake, hdrop, hbefore, hbehind⟩ :=
    cut_parts hplain n.isFraction_fractionText n.isExponent_exponentText
  have hfraction : n.fractionText.drop 1 = n.fraction := by
    rw [fractionText]
    split
    · next h => rw [h, List.drop_nil]
    · rfl
  have hfits : (Decimal.exponentFits n.writtenExponent && Decimal.exponentFits n.power) =
      decide n.Fits := by
    rw [Bool.eq_iff_iff, decide_eq_true_iff]
    simp only [Decimal.exponentFits, Fits, Bool.and_eq_true, decide_eq_true_eq]
    omega
  have hvalue : Decimal.signedValue (n.minusText ++ n.whole ++ n.fraction) = n.coefficient := by
    rw [List.append_assoc, coefficient]
    exact signedValue_minusText_append (List.forall_mem_append.mpr ⟨hwhole, n.fraction_isDigit⟩)
  rw [text, ← List.append_assoc, ofLiteral?_of_cut htake hdrop hbefore hbehind, hfraction,
    n.signedValue_exponentText, hvalue]
  change (if (Decimal.exponentFits n.writtenExponent && Decimal.exponentFits n.power) = true
    then _ else _) = _
  rw [hfits]
  simp only [decide_eq_true_eq]
  rfl

/-- A written exponent that fits does not fit any more when the fraction is taken into account. -/
example : Decimal.ofLiteral? (bytes "0.5e-2147483648") = none := by decide

end NumberLiteral

/-- The longest word of the grammar of numbers that a text starts with. -/
def IsLongestNumber (l s : Bytes) : Prop :=
  IsNumber l ∧ l <+: s ∧ ∀ t, IsNumber t → t <+: s → t.length ≤ l.length

theorem number?_append_iff :
    Lexeme.number? (l ++ r) = some l.length ↔ IsLongestNumber l (l ++ r) := by
  constructor
  · intro h
    refine ⟨Token.isNumber_of_number? h, List.prefix_append l r, ?_⟩
    rintro t ht ⟨u, hu⟩
    obtain ⟨n, hn, hle⟩ := Lexeme.exists_le_number? ht u
    rw [hu, h, Option.some.injEq] at hn
    omega
  · rintro ⟨hl, -, hlongest⟩
    obtain ⟨n, hn, hle⟩ := Lexeme.exists_le_number? hl r
    obtain ⟨t, u, htu, ht, rfl⟩ := Lexeme.exists_of_number? hn
    have := hlongest t ht ⟨u, htu.symm⟩
    rw [hn, Option.some.injEq]
    omega

theorem reads_number_iff :
    (Token.number l).Reads c m ↔ c.Takes l m ∧ IsLongestNumber l c.skipTrivia.rest := by
  refine and_congr_right fun h => ?_
  rw [h.1]
  exact number?_append_iff

/-- A number is read wherever one starts. -/
theorem exists_reads_number_iff :
    (∃ l m, (Token.number l).Reads c m) ↔ ∃ l, IsNumber l ∧ l <+: c.skipTrivia.rest := by
  constructor
  · rintro ⟨l, m, h⟩
    exact ⟨l, h.2.proper, ⟨m.rest, h.1.1.symm⟩⟩
  · rintro ⟨t, ht, u, hu⟩
    obtain ⟨n, hn, -⟩ := Lexeme.exists_le_number? ht u
    have hlexeme : c.lexeme? .number =
        some (c.skipTrivia.rest.take n, c.skipTrivia.advance n) := by
      rw [Cursor.lexeme?, Lexeme.length?, ← hu, hn]
      rfl
    exact ⟨_, _, Token.lexeme?_number_eq_some_iff.mp hlexeme⟩

/-- A literal is a value, or a failure if its exponents do not fit. -/
theorem numberValue_of_reads {n : NumberLiteral} (h : (Token.number n.text).Reads c m) :
    numberValue c =
      if n.Fits then
        .matched (.number ⟨c.skipTrivia.offset, c.skipTrivia.offset + n.text.length⟩
          ⟨n.text, ⟨n.coefficient, n.power⟩⟩) m.skipTrivia
      else .failed ⟨c.skipTrivia.offset, .invalidNumber n.text⟩ := by
  have hreads : (Token.number n.text).Reads c.skipTrivia m := h.congr (by simp)
  have hlexeme := Token.lexeme?_number_eq_some_iff.mpr hreads
  have hexact := n.ofLiteral?_text
  split
  · next hfits =>
    rw [if_pos hfits] at hexact
    rw [numberValue, positioned_of_matched (m := m)
      (f := fun loc => .number loc ⟨n.text, ⟨n.coefficient, n.power⟩⟩) ?_ ⟨_, h.1⟩, h.spanTo_eq]
    · rfl
    · simp only [hlexeme, hexact]
  · next hfits =>
    rw [if_neg hfits] at hexact
    simp [numberValue, positioned, hlexeme, hexact, Cursor.fail, Outcome.andThen, Outcome.backTo]

theorem numberValue_of_not_reads (h : ¬ ∃ l m, (Token.number l).Reads c m) :
    numberValue c = .noMatch c := by
  have hlexeme : c.skipTrivia.lexeme? .number = none := by
    rw [Option.eq_none_iff_forall_ne_some]
    rintro ⟨l, m⟩ hl
    exact h ⟨l, m, (Token.lexeme?_number_eq_some_iff.mp hl).congr (by simp)⟩
  exact positioned_of_noMatch (d := c.skipTrivia) (by simp [hlexeme])

/-- The outcome is known from the longest literal that the text starts with, if there is one. -/
theorem numberValue_cases (c : Cursor) :
    (∃ (n : NumberLiteral) (m : Cursor), (Token.number n.text).Reads c m) ∨
      numberValue c = .noMatch c ∧ ¬ ∃ l m, (Token.number l).Reads c m := by
  by_cases h : ∃ l m, (Token.number l).Reads c m
  · obtain ⟨l, m, hreads⟩ := h
    obtain ⟨n, rfl⟩ := NumberLiteral.isNumber_iff_exists_text.mp hreads.2.proper
    exact .inl ⟨n, m, hreads⟩
  · exact .inr ⟨numberValue_of_not_reads h, h⟩

theorem numberValue_eq_noMatch_iff :
    numberValue c = .noMatch c ↔ ¬ ∃ l m, (Token.number l).Reads c m := by
  refine ⟨?_, numberValue_of_not_reads⟩
  rintro h ⟨l, m, hreads⟩
  obtain ⟨n, rfl⟩ := NumberLiteral.isNumber_iff_exists_text.mp hreads.2.proper
  rw [numberValue_of_reads hreads] at h
  split at h <;> simp at h

theorem numberValue_eq_matched_iff {x : Value Span} :
    numberValue c = .matched x d ↔
      ∃ (n : NumberLiteral) (m : Cursor), (Token.number n.text).Reads c m ∧ n.Fits ∧
        d = m.skipTrivia ∧
        x = .number ⟨c.skipTrivia.offset, c.skipTrivia.offset + n.text.length⟩
          ⟨n.text, ⟨n.coefficient, n.power⟩⟩ := by
  constructor
  · intro h
    rcases numberValue_cases c with ⟨n, m, hreads⟩ | ⟨hno, -⟩
    · rw [numberValue_of_reads hreads] at h
      split at h
      · next hfits =>
        obtain ⟨rfl, rfl⟩ := Outcome.matched.inj h
        exact ⟨n, m, hreads, hfits, rfl, rfl⟩
      · simp at h
    · simp [hno] at h
  · rintro ⟨n, m, hreads, hfits, rfl, rfl⟩
    rw [numberValue_of_reads hreads, if_pos hfits]

theorem numberValue_eq_failed_iff {e : SyntaxError} :
    numberValue c = .failed e ↔
      ∃ (n : NumberLiteral) (m : Cursor), (Token.number n.text).Reads c m ∧ ¬ n.Fits ∧
        e = ⟨c.skipTrivia.offset, .invalidNumber n.text⟩ := by
  constructor
  · intro h
    rcases numberValue_cases c with ⟨n, m, hreads⟩ | ⟨hno, -⟩
    · rw [numberValue_of_reads hreads] at h
      split at h
      · simp at h
      · next hfits => exact ⟨n, m, hreads, hfits, (Outcome.failed.inj h).symm⟩
    · simp [hno] at h
  · rintro ⟨n, m, hreads, hfits, rfl⟩
    rw [numberValue_of_reads hreads, if_neg hfits]

/-- Numbers are read to their ends and kept exactly. Where a literal starts, the longest one is
taken and its coefficient times its power of ten is the number that it denotes; it is a failure if
the written or the resulting exponent is no number of 32 bits. Elsewhere there is no match. -/
theorem numberValue_exact (c : Cursor) :
    (numberValue c = .noMatch c ↔ ¬ ∃ l, IsNumber l ∧ l <+: c.skipTrivia.rest) ∧
    (∀ x d, numberValue c = .matched x d ↔
      ∃ (n : NumberLiteral) (m : Cursor), c.Takes n.text m ∧
        IsLongestNumber n.text c.skipTrivia.rest ∧ n.Fits ∧ d = m.skipTrivia ∧
        x = .number ⟨c.skipTrivia.offset, c.skipTrivia.offset + n.text.length⟩
          ⟨n.text, ⟨n.coefficient, n.power⟩⟩) ∧
    (∀ e, numberValue c = .failed e ↔
      ∃ (n : NumberLiteral) (m : Cursor), c.Takes n.text m ∧
        IsLongestNumber n.text c.skipTrivia.rest ∧ ¬ n.Fits ∧
        e = ⟨c.skipTrivia.offset, .invalidNumber n.text⟩) ∧
    (∀ e, numberValue c = .failed e → e.cause.code = bytes "S0005") ∧
    ∀ n : NumberLiteral, (n.coefficient : ℚ) * 10 ^ n.power = n.value := by
  refine ⟨?_, fun x d => ?_, fun e => ?_, fun e he => ?_, NumberLiteral.coefficient_mul_power⟩
  · rw [← exists_reads_number_iff]
    exact numberValue_eq_noMatch_iff
  · simp only [numberValue_eq_matched_iff, reads_number_iff, and_assoc]
  · simp only [numberValue_eq_failed_iff, reads_number_iff, and_assoc]
  · obtain ⟨n, m, -, -, rfl⟩ := numberValue_eq_failed_iff.mp he
    rfl

end SchemaDoc.Grammar
