import Mathlib.Data.List.TakeWhile
import SchemaDoc.Number.Shortest
import SchemaDoc.Proofs.Number.Rounding

/-! # Shortest digits are read back

The search for shortest digits tries grids of powers of ten that get finer and
finer. The grid with seventeen digits is finer than the interval of a number is
wide, so the search finds digits, and whatever it finds lies in the interval:
the digits are rounded back to the number.
-/

namespace SchemaDoc.Digits

open Binary64

variable {m n : Nat} {e : ℤ}

namespace Ratio

def value (r : Ratio) : ℚ := r.numerator / r.denominator

theorem value_scaled (n : Nat) {base : Nat} (hbase : 0 < base) (e : ℤ) :
    (scaled n base e).value = n * (base : ℚ) ^ e := by
  rw [value, scaled, zpow_eq_div hbase, Nat.cast_mul, mul_div_assoc]

theorem denominator_scaled_pos (n : Nat) {base : Nat} (hbase : 0 < base) (e : ℤ) :
    0 < (scaled n base e).denominator := Nat.pow_pos hbase

theorem lt_iff {a b : Ratio} (ha : 0 < a.denominator) (hb : 0 < b.denominator) :
    a.lt b = true ↔ a.value < b.value := by
  have ha' : (0 : ℚ) < a.denominator := by exact_mod_cast ha
  have hb' : (0 : ℚ) < b.denominator := by exact_mod_cast hb
  rw [lt, decide_eq_true_iff, value, value, div_lt_div_iff₀ ha' hb']
  exact_mod_cast Iff.rfl

theorem le_iff {a b : Ratio} (ha : 0 < a.denominator) (hb : 0 < b.denominator) :
    a.le b = true ↔ a.value ≤ b.value := by
  rw [le, Bool.not_eq_true', Bool.eq_false_iff, Ne, lt_iff hb ha, not_lt]

end Ratio

theorem value_scaled_quarters (n : Nat) (u : ℤ) :
    (Ratio.scaled n 2 (u - 2)).value = n / 4 * 2 ^ u := by
  rw [Ratio.value_scaled n (by decide), Nat.cast_ofNat, zpow_sub₀ (by norm_num)]
  norm_num
  ring

theorem value_interval (m : Nat) : (interval m).value.value = Binary64.value m := by
  rw [interval, value_scaled_quarters, Binary64.value, Nat.cast_mul, Nat.cast_ofNat]
  ring

theorem value_interval_high (m : Nat) :
    (interval m).high.value = (significand m + 1 / 2) * 2 ^ unitExponent m := by
  rw [interval, value_scaled_quarters, Nat.cast_add, Nat.cast_mul, Nat.cast_ofNat, Nat.cast_ofNat]
  ring

theorem value_interval_low (hm : 0 < m) :
    (interval m).low.value = (significand m - lowerGap m) * 2 ^ unitExponent m := by
  have hs := significand_pos hm
  rw [interval, value_scaled_quarters]
  congr 1
  rw [lowerGap]
  by_cases h : IsBoundary m
  · have hpower : (decide (m % hiddenBit = 0) && decide (hiddenBit < m)) = true := by
      simpa [IsBoundary] using h
    rw [if_pos h, if_pos hpower, Nat.cast_sub (by omega), Nat.cast_mul]
    norm_num
    ring
  · have hpower : ¬ (decide (m % hiddenBit = 0) && decide (hiddenBit < m)) = true := by
      simpa [IsBoundary] using h
    rw [if_neg h, if_neg hpower, Nat.cast_sub (by omega), Nat.cast_mul]
    norm_num
    ring

/-- The interval of a number holds the fractions that are rounded to it. -/
theorem contains_interval_iff (hm : 0 < m) {r : Ratio} (hr : 0 < r.denominator) :
    (interval m).contains r = true ↔ Rounds m r.value := by
  have hlow : 0 < (interval m).low.denominator := Ratio.denominator_scaled_pos _ (by decide) _
  have hhigh : 0 < (interval m).high.denominator := Ratio.denominator_scaled_pos _ (by decide) _
  have hclosed : (interval m).closed = decide (significand m % 2 = 0) := rfl
  rw [Interval.contains, hclosed]
  by_cases heven : significand m % 2 = 0
  · rw [if_pos (by simpa using heven), Bool.and_eq_true, Ratio.le_iff hlow hr,
      Ratio.le_iff hr hhigh, value_interval_low hm, value_interval_high]
    constructor
    · rintro ⟨h₁, h₂⟩
      exact ⟨h₁, h₂, by omega⟩
    · intro h
      exact ⟨h.low, h.high⟩
  · rw [if_neg (by simpa using heven), Bool.and_eq_true, Ratio.lt_iff hlow hr,
      Ratio.lt_iff hr hhigh, value_interval_low hm, value_interval_high]
    constructor
    · rintro ⟨h₁, h₂⟩
      exact ⟨h₁.le, h₂.le, fun _ => ⟨h₁, h₂⟩⟩
    · intro h
      exact h.strict (by omega)

/-- The interval is wider than a part of the number that seventeen digits tell apart. -/
theorem value_lt_width (m : Nat) :
    Binary64.value m / 10 ^ 16 < (1 / 2 + lowerGap m) * 2 ^ unitExponent m := by
  rw [Binary64.value, mul_div_right_comm]
  apply mul_lt_mul_of_pos_right _ (two_zpow_pos _)
  rw [lowerGap]
  by_cases h : IsBoundary m
  · have hs : significand m = hiddenBit := by
      rw [(normal_of_le h.2.le).1, h.1, Nat.zero_add]
    rw [if_pos h, hs, hiddenBit]
    norm_num
  · have hs : (significand m : ℚ) < 2 * 2 ^ 52 := by
      have := significand_lt m
      rw [hiddenBit] at this
      exact_mod_cast this
    rw [if_neg h]
    linarith

/-- The number of digits of a scaled quotient tells a power of ten below the fraction. -/
theorem zpow_length_le {num den k : Nat} (hden : 0 < den) (hk : (10 : ℚ) ^ (-(k : ℤ)) ≤ num / den) :
    (10 : ℚ) ^ (((Bytes.decimal (num * Nat.pow 10 k / den)).length : ℤ) - (k + 1)) ≤ num / den := by
  have hden' : (0 : ℚ) < den := by exact_mod_cast hden
  have hpos : (0 : ℚ) < 10 ^ k := by positivity
  have hle : den ≤ num * Nat.pow 10 k := by
    rw [zpow_neg, zpow_natCast, le_div_iff₀ hden', inv_mul_le_iff₀ hpos] at hk
    rw [Nat.pow_eq, mul_comm]
    exact_mod_cast hk
  have hquotient : 0 < num * Nat.pow 10 k / den := Nat.div_pos hle hden
  have hlength := Bytes.pow_length_decimal_le hquotient
  have hdigits : 0 < (Bytes.decimal (num * Nat.pow 10 k / den)).length :=
    List.length_pos_iff.mpr (Bytes.decimal_ne_nil _)
  generalize (Bytes.decimal (num * Nat.pow 10 k / den)).length = digits at *
  have hscaled : 10 ^ (digits - 1) * den ≤ num * 10 ^ k :=
    (Nat.mul_le_mul_right den hlength).trans (Nat.div_mul_le_self _ _)
  have hscaled' : (10 : ℚ) ^ (digits - 1) * den ≤ num * 10 ^ k := by exact_mod_cast hscaled
  rw [show (digits : ℤ) - (k + 1) = ((digits - 1 : Nat) : ℤ) - k by omega, zpow_sub₀ (by norm_num),
    zpow_natCast, zpow_natCast, le_div_iff₀ hden', div_mul_eq_mul_div, div_le_iff₀ hpos]
  exact hscaled'

theorem zpow_leadingExponent_le (hm : 0 < m) (hfinite : m < infiniteMagnitude) :
    (10 : ℚ) ^ leadingExponent (interval m).value ≤ Binary64.value m := by
  have hlow := (rounds_bounds hm hfinite (rounds_value m)).1
  have hden : 0 < (interval m).value.denominator := Ratio.denominator_scaled_pos _ (by decide) _
  rw [← value_interval, Ratio.value] at hlow ⊢
  rw [leadingExponent]
  -- The power of ten is kept from being computed.
  generalize hk : 400 = k
  have hexponent : -(k : ℤ) ≤ -331 := by omega
  rw [show (401 : ℤ) = k + 1 by omega]
  exact zpow_length_le hden ((zpow_le_zpow_right₀ (by norm_num) hexponent).trans hlow.le)

/-- The number on a grid is one of its two neighbours there. -/
theorem onGrid_eq_some {i : Interval} (h : onGrid i e = some n) :
    i.contains (.scaled n 10 e) = true := by
  rw [onGrid] at h
  simp only at h
  split at h
  · nomatch h
  · next hdown _ =>
    cases h
    exact hdown
  · next hup =>
    cases h
    exact hup
  · next hdown hup =>
    cases h
    split
    · exact hdown
    split
    · exact hup
    split
    · exact hdown
    · exact hup

theorem quotient_spec {a b : Ratio} {q : Nat} (ha : 0 < a.denominator) (hb : 0 < b.denominator)
    (hb' : 0 < b.numerator) (hq : a.numerator * b.denominator / (a.denominator * b.numerator) = q) :
    q * b.value ≤ a.value ∧ a.value < (q + 1 : Nat) * b.value := by
  have hdiv := Nat.div_mul_le_self (a.numerator * b.denominator) (a.denominator * b.numerator)
  have hlt := Nat.lt_div_mul_add (a := a.numerator * b.denominator) (Nat.mul_pos ha hb')
  rw [← Nat.add_one_mul, hq] at hlt
  rw [hq] at hdiv
  have ha₀ : (0 : ℚ) < a.denominator := by exact_mod_cast ha
  have hb₀ : (0 : ℚ) < b.denominator := by exact_mod_cast hb
  rw [Ratio.value, Ratio.value, mul_div_assoc', mul_div_assoc', div_le_div_iff₀ hb₀ ha₀,
    div_lt_div_iff₀ ha₀ hb₀]
  constructor
  · have : q * b.numerator * a.denominator ≤ a.numerator * b.denominator := by
      calc q * b.numerator * a.denominator = q * (a.denominator * b.numerator) := by ring
        _ ≤ a.numerator * b.denominator := hdiv
    exact_mod_cast this
  · have : a.numerator * b.denominator < (q + 1) * b.numerator * a.denominator := by
      calc a.numerator * b.denominator < (q + 1) * (a.denominator * b.numerator) := hlt
        _ = (q + 1) * b.numerator * a.denominator := by ring
    exact_mod_cast this

/-- When a grid has no number in the interval, both neighbours of the number are outside of it. -/
theorem exists_neighbours (hm : 0 < m) (h : onGrid (interval m) e = none) :
    ∃ down : Nat, down * (10 : ℚ) ^ e ≤ Binary64.value m ∧
      Binary64.value m < (down + 1 : Nat) * 10 ^ e ∧
      ¬ Rounds m (down * 10 ^ e) ∧ ¬ Rounds m ((down + 1 : Nat) * 10 ^ e) := by
  have hunit : (Ratio.scaled 1 10 e).value = 10 ^ e := by
    rw [Ratio.value_scaled 1 (by decide), Nat.cast_one, one_mul, Nat.cast_ofNat]
  have hquotient := quotient_spec (a := (interval m).value) (b := .scaled 1 10 e)
    (Ratio.denominator_scaled_pos _ (by decide) _) (Ratio.denominator_scaled_pos _ (by decide) _)
    (Nat.mul_pos Nat.one_pos (Nat.pow_pos (by decide))) rfl
  rw [value_interval, hunit] at hquotient
  have outside (n : Nat) (hn : ¬ (interval m).contains (.scaled n 10 e) = true) :
      ¬ Rounds m (n * 10 ^ e) := by
    rw [contains_interval_iff hm (Ratio.denominator_scaled_pos _ (by decide) _),
      Ratio.value_scaled n (by decide), Nat.cast_ofNat] at hn
    exact hn
  rw [onGrid] at h
  simp only at h
  split at h
  · next hdown hup => exact ⟨_, hquotient.1, hquotient.2, outside _ (by simp [hdown]),
      outside _ (by simp [hup])⟩
  · nomatch h
  · nomatch h
  · nomatch h

/-- A grid that is fine enough has a number in the interval. -/
theorem onGrid_ne_none (hm : 0 < m) (he : (10 : ℚ) ^ e ≤ Binary64.value m / 10 ^ 16) :
    onGrid (interval m) e ≠ none := by
  intro h
  obtain ⟨down, hdown, hup, hnotDown, hnotUp⟩ := exists_neighbours hm h
  have hwidth := value_lt_width m
  have hgap := lowerGap_pos m
  have hpos := two_zpow_pos (unitExponent m)
  have hvalue : Binary64.value m = significand m * 2 ^ unitExponent m := rfl
  have hlow : down * (10 : ℚ) ^ e ≤ (significand m - lowerGap m) * 2 ^ unitExponent m := by
    by_contra hlt
    have hlt := not_le.mp hlt
    refine hnotDown ⟨hlt.le, ?_, fun _ => ⟨hlt, ?_⟩⟩ <;> nlinarith
  have hhigh : (significand m + 1 / 2) * 2 ^ unitExponent m ≤ (down + 1 : Nat) * (10 : ℚ) ^ e := by
    by_contra hlt
    have hlt := not_le.mp hlt
    refine hnotUp ⟨?_, hlt.le, fun _ => ⟨?_, hlt⟩⟩ <;> nlinarith
  rw [Nat.cast_add, Nat.cast_one] at hhigh
  linarith

/-- A search that passes a grid with a number in the interval ends with the digits of such a
number. -/
theorem exists_of_search {i : Interval} {leading : ℤ} {fuel count k : Nat} (hcount : count ≤ k)
    (hfuel : k < count + fuel) (hk : onGrid i (leading - k + 1) ≠ none) :
    ∃ n e, onGrid i e = some n ∧ search i leading fuel count =
      ⟨dropZeros (Bytes.decimal n), e + (Bytes.decimal n).length⟩ := by
  induction fuel generalizing count with
  | zero => omega
  | succ fuel ih =>
    rw [search]
    cases hgrid : onGrid i (leading - count + 1) with
    | some n => exact ⟨n, _, hgrid, rfl⟩
    | none =>
      have hne : count ≠ k := by
        rintro rfl
        exact hk hgrid
      exact ih (by omega) (by omega)

def value (d : Digits) : ℚ := Bytes.digitsValue d.digits * 10 ^ (d.point - d.digits.length)

/-- Digits that do not start with a zero, for a number that is rounded to the low bits. -/
structure Spell (d : Digits) (m : Nat) : Prop where
  digit : ∀ b ∈ d.digits, Bytes.isDigit b = true
  first : ∃ b s, d.digits = b :: s ∧ b ≠ 0x30
  rounds : Rounds m d.value

theorem exists_zeros_of_dropZeros (s : Bytes) :
    ∃ k, s = dropZeros s ++ List.replicate k 0x30 := by
  refine ⟨(s.reverse.takeWhile (· == 0x30)).length, ?_⟩
  have hzeros : s.reverse.takeWhile (· == 0x30) =
      List.replicate (s.reverse.takeWhile (· == 0x30)).length 0x30 := by
    rw [List.eq_replicate_iff]
    exact ⟨rfl, fun b hb => beq_iff_eq.mp (List.mem_takeWhile_imp (p := (· == 0x30)) hb)⟩
  calc s = s.reverse.reverse := s.reverse_reverse.symm
    _ = (s.reverse.takeWhile (· == 0x30) ++ s.reverse.dropWhile (· == 0x30)).reverse := by
        rw [List.takeWhile_append_dropWhile]
    _ = dropZeros s ++ List.replicate (s.reverse.takeWhile (· == 0x30)).length 0x30 := by
        rw [List.reverse_append, ← dropZeros]
        nth_rewrite 1 [hzeros]
        rw [List.reverse_replicate]

theorem spell_dropZeros (hn : 0 < n) (h : Rounds m (n * 10 ^ e)) :
    Spell ⟨dropZeros (Bytes.decimal n), e + (Bytes.decimal n).length⟩ m := by
  obtain ⟨k, hk⟩ := exists_zeros_of_dropZeros (Bytes.decimal n)
  obtain ⟨b, s, hbs, hb⟩ := Bytes.exists_cons_of_decimal hn
  have hvalue : (Bytes.digitsValue (dropZeros (Bytes.decimal n)) * 10 ^ k : ℚ) = n := by
    have := Bytes.digitsValue_decimal n
    rw [hk, Bytes.digitsValue_append, Bytes.digitsValue_zeros, List.length_replicate,
      Nat.add_zero] at this
    exact_mod_cast this
  refine ⟨?_, ?_, ?_⟩
  · intro c hc
    apply Bytes.isDigit_of_mem_decimal (n := n)
    rw [hk]
    exact List.mem_append_left _ hc
  · cases hdigits : dropZeros (Bytes.decimal n) with
    | nil =>
      rw [hdigits, List.nil_append, hbs] at hk
      cases k with
      | zero => nomatch hk
      | succ k =>
        rw [List.replicate_succ] at hk
        exact absurd (List.cons.inj hk).1 hb
    | cons c t =>
      refine ⟨c, t, rfl, ?_⟩
      rw [hdigits, hbs, List.cons_append] at hk
      rw [← (List.cons.inj hk).1]
      exact hb
  · have hlength : (Bytes.decimal n).length = (dropZeros (Bytes.decimal n)).length + k := by
      nth_rewrite 1 [hk]
      rw [List.length_append, List.length_replicate]
    have hpoint : e + ((Bytes.decimal n).length : ℤ) - (dropZeros (Bytes.decimal n)).length =
        k + e := by omega
    rw [Digits.value]
    dsimp only
    rw [hpoint, zpow_add₀ (by norm_num), zpow_natCast, ← mul_assoc, hvalue]
    exact h

/-- The shortest digits of a finite number other than zero are rounded back to it. -/
theorem spell_shortest {x : Binary64} (hm : 0 < x.magnitude) (hfinite : x.isInfinite = false) :
    Spell (shortest x) x.magnitude := by
  have hlt := lt_infiniteMagnitude hfinite
  have hgrid : onGrid (interval x.magnitude)
      (leadingExponent (interval x.magnitude).value - (17 : Nat) + 1) ≠ none := by
    apply onGrid_ne_none hm
    rw [le_div_iff₀ (by norm_num), ← zpow_natCast (10 : ℚ) 16, ← zpow_add₀ (by norm_num)]
    calc (10 : ℚ) ^ (leadingExponent (interval x.magnitude).value - (17 : Nat) + 1 + (16 : Nat))
        = 10 ^ leadingExponent (interval x.magnitude).value := by
          congr 1
          omega
      _ ≤ Binary64.value x.magnitude := zpow_leadingExponent_le hm hlt
  obtain ⟨n, e, hn, hsearch⟩ := exists_of_search (by decide : 1 ≤ 17)
    (by decide : 17 < 1 + 17) hgrid
  have hrounds : Rounds x.magnitude (n * 10 ^ e) := by
    have h := (contains_interval_iff hm (Ratio.denominator_scaled_pos n (by decide) e)).mp
      (onGrid_eq_some hn)
    rwa [Ratio.value_scaled n (by decide), Nat.cast_ofNat] at h
  rw [shortest, if_neg hm.ne']
  dsimp only
  rw [hsearch]
  exact spell_dropZeros (pos_of_rounds hm hlt hrounds) hrounds

end SchemaDoc.Digits
