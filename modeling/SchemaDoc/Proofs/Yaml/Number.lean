import SchemaDoc.Proofs.Json.Number
import SchemaDoc.Proofs.Number.Overflow
import SchemaDoc.Yaml.Write

/-! # Numbers in YAML

The text of a number tells the number, and a text that looks like it is one of
those that are not written plain: the finite numbers read as decimal numbers, the
infinite ones are reserved words.
-/

namespace SchemaDoc

open Grammar

variable {s whole fraction exponent : Bytes}

/-- The point of shortest digits is not farther from the first digit than the format allows. -/
theorem Digits.Spell.point_bounds {d : Digits} {m : Nat} (h : d.Spell m) (hm : 0 < m)
    (hfinite : m < infiniteMagnitude) : -331 < d.point ∧ d.point ≤ 309 := by
  obtain ⟨digits, point⟩ := d
  obtain ⟨hdigit, ⟨b, s, rfl, hb⟩, hrounds⟩ := h
  simp only [Digits.value] at hdigit hrounds ⊢
  obtain ⟨hlow, hhigh⟩ := Binary64.rounds_bounds hm hfinite hrounds
  have hpos : (0 : ℚ) < 10 ^ (point - (b :: s).length) := zpow_pos (by norm_num) _
  have hten : (1 : ℚ) < 10 := by norm_num
  have hlt : (Bytes.digitsValue (b :: s) : ℚ) < 10 ^ ((b :: s).length : ℤ) := by
    rw [zpow_natCast]
    exact_mod_cast Bytes.digitsValue_lt hdigit
  have hle : (10 : ℚ) ^ (s.length : ℤ) ≤ Bytes.digitsValue (b :: s) := by
    rw [zpow_natCast]
    exact_mod_cast Bytes.pow_le_digitsValue (hdigit b List.mem_cons_self) hb s
  have hmost := hlow.trans (mul_lt_mul_of_pos_right hlt hpos)
  have hleast := (mul_le_mul_of_nonneg_right hle hpos.le).trans_lt hhigh
  rw [← zpow_add₀ (by norm_num), zpow_lt_zpow_iff_right₀ hten] at hmost hleast
  rw [List.length_cons] at hmost hleast
  omega

namespace Yaml

theorem exponentValue_concat (s : Bytes) (b : UInt8) :
    exponentValue (s ++ [b]) =
      if exponentValue s < 10000 then 10 * exponentValue s + (b.toNat - 0x30)
      else exponentValue s := by
  rw [exponentValue, List.foldl_append]
  rfl

/-- Small exponents are read with all their digits. -/
theorem exponentValue_eq (s : Bytes) (h : Bytes.digitsValue s < 10000) :
    exponentValue s = Bytes.digitsValue s := by
  induction s using List.reverseRecOn with
  | nil => rfl
  | append_singleton s b ih =>
    rw [Bytes.digitsValue_concat] at h ⊢
    rw [exponentValue_concat, ih (by omega), if_pos (by omega), Nat.mul_comm]

theorem exponent?_eq (h : IsExponent exponent)
    (hpower : (Decimal.signedValue (exponent.drop 1)).natAbs < 10000) :
    exponent? exponent = some (Decimal.signedValue (exponent.drop 1)) := by
  rcases h with rfl | ⟨mark, sign, digits, hmark, hsign, ⟨hne, hdigits⟩, rfl⟩
  · rfl
  have hall : digits.all Bytes.isDigit = true := List.all_eq_true.mpr hdigits
  have hempty : digits.isEmpty = false := by simpa using hne
  obtain ⟨b, t, rfl⟩ := List.exists_cons_of_ne_nil hne
  have hb := hdigits b List.mem_cons_self
  have hplus : b ≠ 0x2B := by
    rintro rfl
    nomatch hb
  have hminus := (ne_of_isDigit hb).1
  have hread : (mark == 0x65 || mark == 0x45) = true := hmark
  rw [List.drop_succ_cons, List.drop_zero] at hpower ⊢
  rw [exponent?]
  rcases hsign with rfl | rfl | rfl
  · have hdrop : dropSign (b :: t) = b :: t := by simp [dropSign, hplus, hminus]
    have hvalue : Decimal.signedValue (b :: t) = Bytes.digitsValue (b :: t) := by
      simp [Decimal.signedValue, hplus, hminus]
    rw [List.nil_append, hvalue] at hpower
    rw [List.nil_append, hdrop, hvalue, exponentValue_eq _ (by omega)]
    simp [hread, hall, hminus]
  · have hvalue : Decimal.signedValue (0x2B :: b :: t) = Bytes.digitsValue (b :: t) := rfl
    rw [List.singleton_append, hvalue] at hpower
    rw [List.singleton_append, hvalue]
    simp [dropSign, hread, hall, exponentValue_eq _ (by omega : Bytes.digitsValue (b :: t) < 10000)]
  · have hvalue : Decimal.signedValue (0x2D :: b :: t) = -(Bytes.digitsValue (b :: t)) := rfl
    rw [List.singleton_append, hvalue] at hpower
    rw [List.singleton_append, hvalue]
    simp [dropSign, hread, hall, exponentValue_eq _ (by omega : Bytes.digitsValue (b :: t) < 10000)]

/-- Behind the whole part stand no digits but those of the fraction and the exponent. -/
theorem stops_isDigit_behind (hfraction : IsFraction fraction) (hexponent : IsExponent exponent) :
    Stops Bytes.isDigit exponent ∧ Stops Bytes.isDigit (fraction ++ exponent) := by
  have hstops : Stops Bytes.isDigit exponent := by
    rcases hexponent with rfl | ⟨mark, sign, digits, hmark, -, -, rfl⟩
    · trivial
    · rw [stops_cons, Bool.eq_false_iff]
      intro hdigit
      rw [(ne_of_isDigit hdigit).2.2] at hmark
      nomatch hmark
  refine ⟨hstops, ?_⟩
  rcases hfraction with rfl | ⟨digits, -, rfl⟩
  · exact hstops
  · rfl

/-- A decimal number is read from its parts. -/
theorem isFiniteDecimal_parts {sign : Bytes} (hsign : IsMinus sign) (hwhole : IsDigits whole)
    (hfraction : IsFraction fraction) (hexponent : IsExponent exponent) :
    isFiniteDecimal (sign ++ (whole ++ (fraction ++ exponent))) =
      match exponent? exponent with
      | none => false
      | some e =>
        Bytes.digitsValue (whole ++ fraction.drop 1) == 0 ||
          Binary64.magnitudeOf (Bytes.digitsValue (whole ++ fraction.drop 1))
            (e - (fraction.drop 1).length) != infiniteMagnitude := by
  obtain ⟨hne, hdigits⟩ := hwhole
  have hempty : whole.isEmpty = false := by simpa using hne
  have hunsigned : dropSign (sign ++ (whole ++ (fraction ++ exponent))) =
      whole ++ (fraction ++ exponent) := by
    rcases hsign with rfl | rfl
    · obtain ⟨b, t, rfl⟩ := List.exists_cons_of_ne_nil hne
      have hb := hdigits b List.mem_cons_self
      have hplus : b ≠ 0x2B := by
        rintro rfl
        nomatch hb
      simp [dropSign, hplus, (ne_of_isDigit hb).1]
    · rfl
  obtain ⟨hstops, hbehind⟩ := stops_isDigit_behind hfraction hexponent
  simp only [isFiniteDecimal]
  rw [hunsigned, takeWhile_append_of_stops hdigits hbehind,
    dropWhile_append_of_stops hdigits hbehind, hempty, Bool.false_and, Bool.not_false]
  rcases hfraction with rfl | ⟨digits, ⟨-, hdigits⟩, rfl⟩
  · rw [List.nil_append, List.drop_nil]
    rcases hexponent with rfl | ⟨mark, sign, digits, hmark, -, -, rfl⟩
    · rfl
    · rcases Lexeme.eq_of_isExponentMark hmark with rfl | rfl <;> rfl
  · rw [List.cons_append, List.drop_succ_cons, List.drop_zero]
    cases hvalue : exponent? exponent <;>
      simp only [takeWhile_append_of_stops hdigits hstops,
        dropWhile_append_of_stops hdigits hstops, hvalue, Bool.true_and]

theorem isFiniteDecimal_of_denotesAt {power : Int} {q : ℚ} {m : Nat}
    (h : Json.Number.DenotesAt s power q) (hpower : power.natAbs < 10000) (hm : 0 < m)
    (hfinite : m < infiniteMagnitude) (hq : Binary64.Rounds m q) (negative : Bool) :
    isFiniteDecimal (Json.Number.minusSign negative ++ s) = true := by
  obtain ⟨whole, fraction, exponent, hwhole, hfraction, hexponent, rfl, rfl, rfl⟩ := h
  rw [isFiniteDecimal_parts (Json.Number.isMinus_minusSign negative) (isDigits_of_isWhole hwhole)
    hfraction hexponent, exponent?_eq hexponent hpower]
  dsimp only
  rw [Binary64.magnitudeOf_of_rounds hm hfinite hq]
  simp [hfinite.ne]

/-- The bytes that numbers are made of. -/
def isNumeric (b : UInt8) : Bool :=
  Bytes.isDigit b || b == 0x2D || b == 0x2B || b == 0x2E || isExponentMark b

theorem isNumeric_of_isNumber (h : IsNumber s) : ∀ b ∈ s, isNumeric b = true := by
  have hdigits {t : Bytes} (h : ∀ b ∈ t, Bytes.isDigit b = true) : ∀ b ∈ t, isNumeric b = true :=
    fun b hb => by simp [isNumeric, h b hb]
  obtain ⟨minus, whole, fraction, exponent, hminus, hwhole, hfraction, hexponent, rfl⟩ := h
  simp only [List.forall_mem_append]
  refine ⟨?_, hdigits (isDigits_of_isWhole hwhole).2, ?_, ?_⟩
  · rcases hminus with rfl | rfl <;> simp [isNumeric]
  · rcases hfraction with rfl | ⟨ds, ⟨-, hds⟩, rfl⟩
    · nofun
    · exact List.forall_mem_cons.mpr ⟨rfl, hdigits hds⟩
  · rcases hexponent with rfl | ⟨mark, sign, ds, hmark, hsign, ⟨-, hds⟩, rfl⟩
    · nofun
    · refine List.forall_mem_cons.mpr ⟨by simp [isNumeric, hmark], ?_⟩
      refine List.forall_mem_append.mpr ⟨?_, hdigits hds⟩
      rcases hsign with rfl | rfl | rfl <;> simp [isNumeric]

/-- A number that reads as a finite one is not a plain text. -/
theorem readsOtherwise_of_isNumber (h : IsNumber s) (hread : isFiniteDecimal s = true) :
    readsOtherwise s = true := by
  have hbare : s.filter (· != 0x5F) = s := by
    rw [List.filter_eq_self]
    intro b hb
    have hnumeric := isNumeric_of_isNumber h b hb
    rw [bne_iff_ne]
    rintro rfl
    nomatch hnumeric
  obtain ⟨b, t, rfl, hb⟩ := h.exists_first
  have hpoint : b ≠ 0x2E := by
    rintro rfl
    rcases hb with hb | hb <;> nomatch hb
  have hfirst : (b = 0x2B || b = 0x2D || Bytes.isDigit b) = true := by
    rcases hb with rfl | hb
    · rfl
    · simp [hb]
  rw [readsOtherwise, hbare, if_neg hpoint, if_pos hfirst, hread]
  simp

theorem isFiniteDecimal_signed {k : Int} (hk : k.natAbs ≤ 2 ^ 63) :
    isFiniteDecimal (Bytes.signed k) = true := by
  have hparts : Bytes.signed k = Json.Number.minusSign (k < 0) ++
      (Bytes.decimal k.natAbs ++ ([] ++ [])) := by
    rw [List.append_nil, List.append_nil, Json.Number.signed_eq]
  rw [hparts, isFiniteDecimal_parts (Json.Number.isMinus_minusSign _)
    (isDigits_of_isWhole (Json.Number.isWhole_decimal _)) (.inl rfl) (.inl rfl), exponent?,
    List.drop_nil, List.append_nil, Bytes.digitsValue_decimal]
  by_cases hzero : k.natAbs = 0
  · simp [hzero]
  · have hlt : (k.natAbs * 10 ^ (0 : ℤ) : ℚ) < Binary64.overflow := by
      have hunit : (2 : ℚ) ^ (63 : ℤ) ≤ 2 ^ (971 : ℤ) :=
        zpow_le_zpow_right₀ (by norm_num) (by decide)
      calc (k.natAbs * 10 ^ (0 : ℤ) : ℚ) = k.natAbs := by rw [zpow_zero, mul_one]
        _ ≤ 2 ^ (63 : ℤ) := by exact_mod_cast hk
        _ ≤ 1 * 2 ^ (971 : ℤ) := by rwa [one_mul]
        _ < Binary64.overflow := by
          rw [Binary64.overflow_eq]
          exact mul_lt_mul_of_pos_right (by norm_num) (Binary64.two_zpow_pos _)
    have hfinite :=
      mt (Binary64.magnitudeOf_eq_infinite_iff (Nat.pos_of_ne_zero hzero) 0).mp hlt.not_ge
    simp [hfinite]

theorem readsOtherwise_signed {k : Int} (hk : k.natAbs ≤ 2 ^ 63) :
    readsOtherwise (Bytes.signed k) = true :=
  readsOtherwise_of_isNumber (Json.Number.isNumber_signed k) (isFiniteDecimal_signed hk)

theorem line_notMem_signed (k : Int) : 0x0A ∉ Bytes.signed k :=
  fun h => nomatch isNumeric_of_isNumber (Json.Number.isNumber_signed k) _ h

theorem signed_inj {j k : Int} (h : Bytes.signed j = Bytes.signed k) : j = k := by
  have hvalue := Json.Number.value_signed j
  rw [h, Json.Number.value_signed] at hvalue
  exact_mod_cast hvalue.symm

theorem number_of_finite {x : Binary64} (h : x.isInfinite = false) :
    number x = numberStyle.write x := by
  rw [number, if_neg (by simp [h])]

theorem number_of_infinite {x : Binary64} (h : x.isInfinite = true) :
    number x = if x.negative then bytes "-.inf" else bytes ".inf" := if_pos h

theorem isFiniteDecimal_write (n : NumberStyle) {x : Binary64} (hfinite : x.isInfinite = false) :
    isFiniteDecimal (n.write x) = true := by
  by_cases hm : x.magnitude = 0
  · rw [Json.Number.write_zero n hm]
    cases x.negative <;> decide
  · have hpos := Nat.pos_of_ne_zero hm
    have hlt := Binary64.lt_infiniteMagnitude hfinite
    have hspell := Digits.spell_shortest hpos hfinite
    obtain ⟨hlow, hhigh⟩ := hspell.point_bounds hpos hlt
    obtain ⟨s, power, hs, hdenotes, hpower⟩ := Json.Number.exists_writeAt n hpos hfinite
    rw [hs]
    exact isFiniteDecimal_of_denotesAt hdenotes (by omega) hpos hlt hspell.rounds _

theorem isNumber_number {x : Binary64} (h : x.isInfinite = false) : IsNumber (number x) := by
  rw [number_of_finite h]
  exact (Json.Number.isNumber_write numberStyle h).1

/-- No number is written as a text is written plain. -/
theorem readsOtherwise_number (x : Binary64) : readsOtherwise (number x) = true := by
  cases hinfinite : x.isInfinite with
  | true =>
    rw [number_of_infinite hinfinite]
    cases x.negative <;> decide
  | false =>
    have hread := isFiniteDecimal_write numberStyle hinfinite
    rw [← number_of_finite hinfinite] at hread
    exact readsOtherwise_of_isNumber (isNumber_number hinfinite) hread

theorem not_isNumber_infinite {x : Binary64} (h : x.isInfinite = true) : ¬ IsNumber (number x) := by
  rw [number_of_infinite h]
  cases x.negative <;> decide

theorem number_inj {x y : Binary64} (h : number x = number y) : x = y := by
  cases hx : x.isInfinite <;> cases hy : y.isInfinite
  case false.false =>
    rw [number_of_finite hx, number_of_finite hy] at h
    rw [← (Json.Number.isNumber_write numberStyle hx).2, h,
      (Json.Number.isNumber_write numberStyle hy).2]
  case false.true =>
    exact absurd (h ▸ isNumber_number hx) (not_isNumber_infinite hy)
  case true.false =>
    exact absurd (h ▸ isNumber_number hy) (not_isNumber_infinite hx)
  case true.true =>
    obtain ⟨negative, magnitude, _⟩ := x
    obtain ⟨negative', magnitude', _⟩ := y
    obtain rfl : magnitude = infiniteMagnitude := by simpa [Binary64.isInfinite] using hx
    obtain rfl : magnitude' = infiniteMagnitude := by simpa [Binary64.isInfinite] using hy
    rw [number_of_infinite hx, number_of_infinite hy] at h
    revert h
    cases negative <;> cases negative' <;> simp <;> decide

theorem exists_first_of_number (x : Binary64) : ∃ b s, number x = b :: s ∧ isNumeric b = true := by
  cases hinfinite : x.isInfinite with
  | true =>
    rw [number_of_infinite hinfinite]
    cases x.negative <;> exact ⟨_, _, rfl, rfl⟩
  | false =>
    obtain ⟨b, s, hs, -⟩ := (isNumber_number hinfinite).exists_first
    exact ⟨b, s, hs, isNumeric_of_isNumber (isNumber_number hinfinite) b (by simp [hs])⟩

theorem line_notMem_number (x : Binary64) : 0x0A ∉ number x := by
  cases hinfinite : x.isInfinite with
  | true =>
    rw [number_of_infinite hinfinite]
    cases x.negative <;> decide
  | false => exact fun h => nomatch isNumeric_of_isNumber (isNumber_number hinfinite) _ h

end Yaml

end SchemaDoc
