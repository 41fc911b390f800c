import Mathlib.Algebra.Order.Field.Power
import Mathlib.Data.Rat.Cast.Order
import Mathlib.Tactic.FieldSimp
import Mathlib.Tactic.Linarith
import Mathlib.Tactic.NormNum
import Mathlib.Tactic.Positivity
import SchemaDoc.Number.Binary64
import SchemaDoc.Proofs.Text.Decimal

/-! # Rounding to binary numbers

A positive finite binary number has an interval of rational numbers around it,
halfway to its neighbours; the ends belong to it when its significand is even.
Every rational number in the interval is rounded to the number, in whatever way
it is written as a fraction or as a decimal.
-/

namespace SchemaDoc

namespace Binary64

variable {num den m n : Nat}

theorem subnormal_of_lt (h : m < hiddenBit) : significand m = m ∧ unitExponent m = -1074 := by
  refine ⟨if_pos h, ?_⟩
  rw [unitExponent, biasedExponent, Nat.div_eq_of_lt h]
  rfl

theorem normal_of_le (h : hiddenBit ≤ m) :
    significand m = m % hiddenBit + hiddenBit ∧ unitExponent m = (m / hiddenBit : Nat) - 1075 := by
  refine ⟨if_neg (Nat.not_lt.mpr h), ?_⟩
  have hmax : Nat.max (m / hiddenBit) 1 = m / hiddenBit :=
    Nat.max_eq_left ((Nat.one_le_div_iff (by decide)).mpr h)
  rw [unitExponent, biasedExponent, hmax]

theorem neg_le_unitExponent (m : Nat) : -1074 ≤ unitExponent m := by
  have hmax : 1 ≤ biasedExponent m := Nat.le_max_right _ _
  rw [unitExponent]
  omega

theorem significand_lt (m : Nat) : significand m < 2 * hiddenBit := by
  rcases Nat.lt_or_ge m hiddenBit with h | h
  · rw [(subnormal_of_lt h).1]
    omega
  · rw [(normal_of_le h).1, hiddenBit]
    omega

/-- Low bits are the significand on top of all significands with smaller exponents. -/
theorem eq_exponent_add_significand (m : Nat) :
    m = (unitExponent m + 1074).toNat * hiddenBit + significand m := by
  rcases Nat.lt_or_ge m hiddenBit with h | h
  · rw [(subnormal_of_lt h).1, (subnormal_of_lt h).2]
    simp
  · rw [(normal_of_le h).1, (normal_of_le h).2]
    simp only [hiddenBit] at *
    omega

/-- Only the numbers with the least exponent have a significand without its leading bit. -/
theorem hiddenBit_le_significand (h : unitExponent m ≠ -1074) : hiddenBit ≤ significand m := by
  rcases Nat.lt_or_ge m hiddenBit with hm | hm
  · exact absurd (subnormal_of_lt hm).2 h
  · rw [(normal_of_le hm).1]
    omega

theorem unitExponent_le (h : m < infiniteMagnitude) : unitExponent m ≤ 971 := by
  rcases Nat.lt_or_ge m hiddenBit with hm | hm
  · rw [(subnormal_of_lt hm).2]
    decide
  · rw [(normal_of_le hm).2]
    simp only [infiniteMagnitude, hiddenBit] at *
    omega

theorem significand_pos (h : 0 < m) : 0 < significand m := by
  rcases Nat.lt_or_ge m hiddenBit with hm | hm
  · rwa [(subnormal_of_lt hm).1]
  · rw [(normal_of_le hm).1, hiddenBit]
    omega

/-- The number is a power of two whose lower neighbour has a smaller exponent. -/
def IsBoundary (m : Nat) : Prop := m % hiddenBit = 0 ∧ hiddenBit < m

instance (m : Nat) : Decidable (IsBoundary m) := inferInstanceAs (Decidable (_ ∧ _))

theorem isBoundary_of_significand (h : significand m = hiddenBit) (he : unitExponent m ≠ -1074) :
    IsBoundary m := by
  rcases Nat.lt_or_ge m hiddenBit with hm | hm
  · exact absurd (subnormal_of_lt hm).2 he
  · rw [(normal_of_le hm).1] at h
    rw [(normal_of_le hm).2] at he
    simp only [IsBoundary, hiddenBit] at *
    omega

/-- The rational number that finite low bits denote. -/
def value (m : Nat) : ℚ := significand m * 2 ^ unitExponent m

/-- The distance from the number down to the end of its interval, in units of the last place. -/
def lowerGap (m : Nat) : ℚ := if IsBoundary m then 1 / 4 else 1 / 2

/-- The rational number lies in the interval of the low bits. -/
structure Rounds (m : Nat) (q : ℚ) : Prop where
  low : (significand m - lowerGap m) * 2 ^ unitExponent m ≤ q
  high : q ≤ (significand m + 1 / 2) * 2 ^ unitExponent m
  strict : significand m % 2 = 1 →
    (significand m - lowerGap m) * 2 ^ unitExponent m < q ∧
      q < (significand m + 1 / 2) * 2 ^ unitExponent m

theorem lowerGap_pos (m : Nat) : 0 < lowerGap m := by
  rw [lowerGap]
  split <;> norm_num

theorem lowerGap_le (m : Nat) : lowerGap m ≤ 1 / 2 := by
  rw [lowerGap]
  split <;> norm_num

theorem two_zpow_pos (k : ℤ) : (0 : ℚ) < 2 ^ k := zpow_pos (by norm_num) k

theorem rounds_value (m : Nat) : Rounds m (value m) := by
  have hpos := two_zpow_pos (unitExponent m)
  have hgap := lowerGap_pos m
  have hlow : (significand m - lowerGap m) * 2 ^ unitExponent m < value m :=
    mul_lt_mul_of_pos_right (by linarith) hpos
  have hhigh : value m < (significand m + 1 / 2) * 2 ^ unitExponent m :=
    mul_lt_mul_of_pos_right (by linarith) hpos
  exact ⟨hlow.le, hhigh.le, fun _ => ⟨hlow, hhigh⟩⟩

/-- A power with an integer exponent as a fraction of natural numbers. -/
theorem zpow_eq_div {b : Nat} (hb : 0 < b) (k : ℤ) :
    (b : ℚ) ^ k = (Nat.pow b k.toNat : Nat) / (Nat.pow b (-k).toNat : Nat) := by
  have hb' : (b : ℚ) ≠ 0 := by positivity
  rw [Nat.pow_eq, Nat.pow_eq, Nat.cast_pow, Nat.cast_pow, ← zpow_natCast, ← zpow_natCast,
    ← zpow_sub₀ hb']
  congr 1
  omega

/-- A fraction in units of a power of two. -/
theorem scaled_div (num den : Nat) (k : ℤ) :
    ((num * Nat.pow 2 (-k).toNat : Nat) : ℚ) / (den * Nat.pow 2 k.toNat : Nat) =
      num / den / 2 ^ k := by
  have h := zpow_eq_div (b := 2) (by decide) k
  rw [Nat.cast_ofNat] at h
  rw [h, Nat.cast_mul, Nat.cast_mul, div_div_eq_mul_div, mul_comm_div, mul_div_assoc', div_div]

theorem scaled_pos (hden : 0 < den) (k : ℤ) : 0 < den * Nat.pow 2 k.toNat :=
  Nat.mul_pos hden (Nat.pow_pos (by decide))

theorem scaled_lt_iff (hden : 0 < den) (k : ℤ) :
    num * Nat.pow 2 (-k).toNat < den * Nat.pow 2 k.toNat ↔ (num / den : ℚ) < 2 ^ k := by
  have hpos : (0 : ℚ) < (den * Nat.pow 2 k.toNat : Nat) := by exact_mod_cast scaled_pos hden k
  rw [← div_lt_one (two_zpow_pos k), ← scaled_div, div_lt_one hpos, Nat.cast_lt]

/-- The logarithm of a fraction, rounded down. -/
theorem floorLog2_spec (hnum : 0 < num) (hden : 0 < den) :
    (2 : ℚ) ^ floorLog2 num den ≤ num / den ∧ (num / den : ℚ) < 2 ^ (floorLog2 num den + 1) := by
  have hden' : (0 : ℚ) < den := by exact_mod_cast hden
  have hnumLow : (2 : ℚ) ^ (num.log2 : ℤ) ≤ num := by
    exact_mod_cast Nat.log2_self_le hnum.ne'
  have hnumHigh : (num : ℚ) < 2 ^ ((num.log2 : ℤ) + 1) := by
    exact_mod_cast Nat.lt_log2_self (n := num)
  have hdenLow : (2 : ℚ) ^ (den.log2 : ℤ) ≤ den := by
    exact_mod_cast Nat.log2_self_le hden.ne'
  have hdenHigh : (den : ℚ) < 2 ^ ((den.log2 : ℤ) + 1) := by
    exact_mod_cast Nat.lt_log2_self (n := den)
  have hlow : (2 : ℚ) ^ ((num.log2 : ℤ) - den.log2 - 1) ≤ num / den := by
    rw [le_div_iff₀ hden']
    calc (2 : ℚ) ^ ((num.log2 : ℤ) - den.log2 - 1) * den
        ≤ 2 ^ ((num.log2 : ℤ) - den.log2 - 1) * 2 ^ ((den.log2 : ℤ) + 1) :=
          mul_le_mul_of_nonneg_left hdenHigh.le (two_zpow_pos _).le
      _ = 2 ^ (num.log2 : ℤ) := by
          rw [← zpow_add₀ (by norm_num)]
          congr 1
          ring
      _ ≤ num := hnumLow
  have hhigh : (num / den : ℚ) < 2 ^ ((num.log2 : ℤ) - den.log2 + 1) := by
    rw [div_lt_iff₀ hden']
    calc (num : ℚ) < 2 ^ ((num.log2 : ℤ) + 1) := hnumHigh
      _ = 2 ^ ((num.log2 : ℤ) - den.log2 + 1) * 2 ^ (den.log2 : ℤ) := by
          rw [← zpow_add₀ (by norm_num)]
          congr 1
          ring
      _ ≤ 2 ^ ((num.log2 : ℤ) - den.log2 + 1) * den :=
          mul_le_mul_of_nonneg_left hdenLow (two_zpow_pos _).le
  rw [floorLog2]
  simp only [scaled_lt_iff hden]
  split
  · next h =>
    rw [sub_add_cancel]
    exact ⟨hlow, h⟩
  · next h => exact ⟨not_lt.mp h, hhigh⟩

/-- The nearest integer, an even one when two are equally near. -/
theorem roundDiv_eq (hden : 0 < den) (hlow : (n - 1 / 2 : ℚ) ≤ num / den)
    (hhigh : (num / den : ℚ) ≤ n + 1 / 2)
    (hstrict : n % 2 = 1 → (n - 1 / 2 : ℚ) < num / den ∧ (num / den : ℚ) < n + 1 / 2) :
    roundDiv num den = n := by
  have hden' : (0 : ℚ) < den := by exact_mod_cast hden
  rw [le_div_iff₀ hden'] at hlow
  rw [div_le_iff₀ hden'] at hhigh
  rw [lt_div_iff₀ hden', div_lt_iff₀ hden'] at hstrict
  have hlow' : 2 * (n * den) ≤ 2 * num + den := by
    have : (2 * (n * den) : ℚ) ≤ 2 * num + den := by linarith
    exact_mod_cast this
  have hhigh' : 2 * num ≤ 2 * (n * den) + den := by
    have : (2 * num : ℚ) ≤ 2 * (n * den) + den := by linarith
    exact_mod_cast this
  have hstrict' : n % 2 = 1 → 2 * (n * den) < 2 * num + den ∧ 2 * num < 2 * (n * den) + den := by
    intro hodd
    obtain ⟨h₁, h₂⟩ := hstrict hodd
    have h₁' : (2 * (n * den) : ℚ) < 2 * num + den := by linarith
    have h₂' : (2 * num : ℚ) < 2 * (n * den) + den := by linarith
    exact ⟨by exact_mod_cast h₁', by exact_mod_cast h₂'⟩
  have hdiv := Nat.div_add_mod' num den
  have hmod := Nat.mod_lt num hden
  have hle : num / den < n + 1 := by
    rw [Nat.div_lt_iff_lt_mul hden, Nat.add_one_mul]
    omega
  have hge : n < num / den + 2 := by
    refine Nat.lt_of_mul_lt_mul_right (a := den) ?_
    rw [Nat.add_mul]
    omega
  rw [roundDiv]
  generalize num / den = quotient at *
  generalize num % den = rest at *
  obtain rfl | rfl : n = quotient ∨ n = quotient + 1 := by omega
  · grind
  · rw [Nat.add_one_mul] at *
    grind

/-- A fraction is rounded at its last place, and what is too large becomes infinite. -/
theorem nearestMagnitude_eq_min {unit : ℤ} (hunit : unit = max (floorLog2 num den - 52) (-1074)) :
    nearestMagnitude num den =
      Nat.min ((unit + 1074).toNat * hiddenBit +
        roundDiv (num * Nat.pow 2 (-unit).toNat) (den * Nat.pow 2 unit.toNat))
        infiniteMagnitude := by
  have hunit' : unit =
      if floorLog2 num den - 52 < -1074 then -1074 else floorLog2 num den - 52 := by
    rw [hunit]
    split <;> omega
  rw [nearestMagnitude]
  simp only [← hunit']

/-- The low bits for a fraction, from the exponent of its last place and its significand there. -/
theorem nearestMagnitude_eq {unit : ℤ} {s : Nat}
    (hunit : unit = max (floorLog2 num den - 52) (-1074))
    (hs : roundDiv (num * Nat.pow 2 (-unit).toNat) (den * Nat.pow 2 unit.toNat) = s)
    (hle : (unit + 1074).toNat * hiddenBit + s ≤ infiniteMagnitude) :
    nearestMagnitude num den = (unit + 1074).toNat * hiddenBit + s := by
  rw [nearestMagnitude_eq_min hunit, hs]
  exact Nat.min_eq_left hle

private theorem exponent_lt_of_rounds {q : ℚ} (hq : Rounds m q) {k : ℤ} (hk : (2 : ℚ) ^ k ≤ q) :
    k < unitExponent m + 53 := by
  have hs : (significand m : ℚ) + 1 ≤ 2 ^ 53 := by
    have := significand_lt m
    rw [hiddenBit] at this
    exact_mod_cast (by omega : significand m + 1 ≤ 2 ^ 53)
  have hlt : q < 2 ^ (unitExponent m + 53) := by
    calc q ≤ (significand m + 1 / 2) * 2 ^ unitExponent m := hq.high
      _ < 2 ^ 53 * 2 ^ unitExponent m :=
        mul_lt_mul_of_pos_right (by linarith) (two_zpow_pos _)
      _ = 2 ^ (unitExponent m + 53) := by
        rw [zpow_add₀ (by norm_num)]
        norm_num [mul_comm]
  exact (zpow_lt_zpow_iff_right₀ (by norm_num : (1 : ℚ) < 2)).mp (hk.trans_lt hlt)

/-- A fraction in the interval of a number is rounded to it. -/
theorem nearestMagnitude_of_rounds (hfinite : m < infiniteMagnitude)
    (hnum : 0 < num) (hden : 0 < den) (h : Rounds m (num / den)) :
    nearestMagnitude num den = m := by
  obtain ⟨hlogLow, hlogHigh⟩ := floorLog2_spec hnum hden
  have hexponent := exponent_lt_of_rounds h hlogLow
  have hleast := neg_le_unitExponent m
  have hbits := eq_exponent_add_significand m
  have hpos := two_zpow_pos (unitExponent m)
  have hlow := (le_div_iff₀ hpos).mpr h.low
  have hhigh := (div_le_iff₀ hpos).mpr h.high
  obtain hunit | hunit : max (floorLog2 num den - 52) (-1074) = unitExponent m ∨
      max (floorLog2 num den - 52) (-1074) < unitExponent m := by omega
  · -- The last place is that of the number.
    have hround : roundDiv (num * Nat.pow 2 (-unitExponent m).toNat)
        (den * Nat.pow 2 (unitExponent m).toNat) = significand m := by
      have hgap := lowerGap_le m
      apply roundDiv_eq (scaled_pos hden _) <;> rw [scaled_div]
      · linarith
      · exact hhigh
      · intro hodd
        obtain ⟨h₁, h₂⟩ := h.strict hodd
        rw [← lt_div_iff₀ hpos] at h₁
        rw [← div_lt_iff₀ hpos] at h₂
        exact ⟨by linarith, h₂⟩
    rw [nearestMagnitude_eq hunit.symm hround (by omega), ← hbits]
  · -- Just below a power of two the last place is finer, and rounding carries.
    have hnormal : unitExponent m ≠ -1074 := by omega
    have hquotient : (num / den : ℚ) / 2 ^ unitExponent m < 2 ^ 52 := by
      rw [div_lt_iff₀ hpos]
      calc (num / den : ℚ) < 2 ^ (floorLog2 num den + 1) := hlogHigh
        _ ≤ 2 ^ (52 + unitExponent m) := zpow_le_zpow_right₀ (by norm_num) (by omega)
        _ = 2 ^ 52 * 2 ^ unitExponent m := by
          rw [zpow_add₀ (by norm_num)]
          norm_num
    have hs : significand m = hiddenBit := by
      have hge := hiddenBit_le_significand hnormal
      have hgap := lowerGap_le m
      by_contra hne
      have : (2 ^ 52 + 1 : ℚ) ≤ significand m := by
        rw [hiddenBit] at hge hne
        exact_mod_cast (by omega : 2 ^ 52 + 1 ≤ significand m)
      linarith
    have hgap : lowerGap m = 1 / 4 := if_pos (isBoundary_of_significand hs hnormal)
    have hs' : (significand m : ℚ) = 2 ^ 52 := by
      rw [hs, hiddenBit]
      norm_num
    rw [hs', hgap] at hlow
    have hlog : unitExponent m + 51 < floorLog2 num den + 1 := by
      apply (zpow_lt_zpow_iff_right₀ (by norm_num : (1 : ℚ) < 2)).mp
      calc (2 : ℚ) ^ (unitExponent m + 51) = 2 ^ 51 * 2 ^ unitExponent m := by
            rw [zpow_add₀ (by norm_num)]
            norm_num [mul_comm]
        _ ≤ num / den := (le_div_iff₀ hpos).mp (by linarith)
        _ < 2 ^ (floorLog2 num den + 1) := hlogHigh
    have hunit' : max (floorLog2 num den - 52) (-1074) = unitExponent m - 1 := by omega
    have hhalf : (num / den : ℚ) / 2 ^ (unitExponent m - 1) =
        (num / den : ℚ) / 2 ^ unitExponent m * 2 := by
      rw [zpow_sub₀ (by norm_num)]
      field_simp
    have hround : roundDiv (num * Nat.pow 2 (-(unitExponent m - 1)).toNat)
        (den * Nat.pow 2 (unitExponent m - 1).toNat) = 2 * hiddenBit := by
      apply roundDiv_eq (scaled_pos hden _) <;> rw [scaled_div, hhalf, hiddenBit]
      · norm_num at hlow ⊢
        linarith
      · norm_num at hquotient ⊢
        linarith
      · intro hodd
        norm_num at hodd
    have hcarry : (unitExponent m - 1 + 1074).toNat * hiddenBit + 2 * hiddenBit = m := by
      rw [hs, show (unitExponent m + 1074).toNat = (unitExponent m - 1 + 1074).toNat + 1 by omega,
        Nat.add_one_mul] at hbits
      omega
    rw [nearestMagnitude_eq hunit'.symm hround (by omega), hcarry]

theorem tiny_lt : (10 : ℚ) ^ (-331 : ℤ) < 1 / 2 * 2 ^ (-1074 : ℤ) := by
  have h : (2 : ℚ) * 2 ^ 1074 < 10 ^ 331 := by
    exact_mod_cast (by decide +kernel : 2 * 2 ^ 1074 < 10 ^ 331)
  rw [zpow_neg, zpow_neg, zpow_ofNat, zpow_ofNat, one_div, ← mul_inv]
  exact inv_strictAnti₀ (by positivity) h

theorem lt_huge : (2 : ℚ) ^ 53 * 2 ^ (971 : ℤ) < 10 ^ (309 : ℤ) := by
  exact_mod_cast (by decide +kernel : 2 ^ 53 * 2 ^ 971 < 10 ^ 309)

theorem rounds_bounds {q : ℚ} (hm : 0 < m) (hfinite : m < infiniteMagnitude) (h : Rounds m q) :
    (10 : ℚ) ^ (-331 : ℤ) < q ∧ q < 10 ^ (309 : ℤ) := by
  have hgap := lowerGap_le m
  have hs : (1 : ℚ) ≤ significand m := by exact_mod_cast significand_pos hm
  have hs' : (significand m : ℚ) + 1 ≤ 2 ^ 53 := by
    have := significand_lt m
    rw [hiddenBit] at this
    exact_mod_cast (by omega : significand m + 1 ≤ 2 ^ 53)
  constructor
  · calc (10 : ℚ) ^ (-331 : ℤ) < 1 / 2 * 2 ^ (-1074 : ℤ) := tiny_lt
      _ ≤ 1 / 2 * 2 ^ unitExponent m := by
        gcongr
        · norm_num
        · exact neg_le_unitExponent m
      _ ≤ (significand m - lowerGap m) * 2 ^ unitExponent m :=
        mul_le_mul_of_nonneg_right (by linarith) (two_zpow_pos _).le
      _ ≤ q := h.low
  · calc q ≤ (significand m + 1 / 2) * 2 ^ unitExponent m := h.high
      _ ≤ 2 ^ 53 * 2 ^ unitExponent m :=
        mul_le_mul_of_nonneg_right (by linarith) (two_zpow_pos _).le
      _ ≤ 2 ^ 53 * 2 ^ (971 : ℤ) := by
        gcongr
        · norm_num
        · exact unitExponent_le hfinite
      _ < 10 ^ (309 : ℤ) := lt_huge

/-- The decimal as a fraction. -/
theorem decimal_eq_div (c : Nat) (e : ℤ) :
    (c * 10 ^ e : ℚ) = ((c * Nat.pow 10 e.toNat : Nat) : ℚ) / (Nat.pow 10 (-e).toNat : Nat) := by
  have h := zpow_eq_div (b := 10) (by decide) e
  rw [Nat.cast_ofNat] at h
  rw [h, Nat.cast_mul, mul_div_assoc]

theorem pos_of_rounds {c : Nat} {e : ℤ} (hm : 0 < m) (hfinite : m < infiniteMagnitude)
    (h : Rounds m (c * 10 ^ e)) : 0 < c := by
  apply Nat.pos_of_ne_zero
  rintro rfl
  have hlow := (rounds_bounds hm hfinite h).1
  rw [Nat.cast_zero, zero_mul] at hlow
  exact absurd hlow (zpow_nonneg (by norm_num) _).not_gt

/-- The number of digits tells the powers of ten around a decimal. -/
theorem decimal_bounds {c : Nat} (hc : 0 < c) (e : ℤ) :
    (10 : ℚ) ^ (((Bytes.decimal c).length : ℤ) - 1 + e) ≤ c * 10 ^ e ∧
      (c * 10 ^ e : ℚ) < 10 ^ (((Bytes.decimal c).length : ℤ) + e) := by
  have hpos : (0 : ℚ) < 10 ^ e := zpow_pos (by norm_num) e
  have hlength : 0 < (Bytes.decimal c).length := List.length_pos_iff.mpr (Bytes.decimal_ne_nil c)
  constructor
  · rw [zpow_add₀ (by norm_num)]
    refine mul_le_mul_of_nonneg_right ?_ hpos.le
    have := Bytes.pow_length_decimal_le hc
    rw [show ((Bytes.decimal c).length : ℤ) - 1 = ((Bytes.decimal c).length - 1 : Nat) by omega,
      zpow_natCast]
    exact_mod_cast this
  · rw [zpow_add₀ (by norm_num), zpow_natCast]
    refine mul_lt_mul_of_pos_right ?_ hpos
    exact_mod_cast Bytes.lt_pow_length_decimal c

/-- A decimal in the interval of a number is rounded to it. -/
theorem magnitudeOf_of_rounds {c : Nat} {e : ℤ} (hm : 0 < m) (hfinite : m < infiniteMagnitude)
    (h : Rounds m (c * 10 ^ e)) : magnitudeOf c e = m := by
  obtain ⟨hlow, hhigh⟩ := rounds_bounds hm hfinite h
  have hc := pos_of_rounds hm hfinite h
  obtain ⟨hleast, hmost⟩ := decimal_bounds hc e
  have hten : (1 : ℚ) < 10 := by norm_num
  have hnotLarge := (zpow_lt_zpow_iff_right₀ hten).mp (hleast.trans_lt hhigh)
  have hnotSmall := (zpow_lt_zpow_iff_right₀ hten).mp (hlow.trans hmost)
  rw [magnitudeOf]
  simp only [show ¬ 310 < ((Bytes.decimal c).length : ℤ) + e by omega,
    show ¬ ((Bytes.decimal c).length : ℤ) + e < -330 by omega, if_false]
  apply nearestMagnitude_of_rounds hfinite
  · exact Nat.mul_pos hc (Nat.pow_pos (by decide))
  · exact Nat.pow_pos (by decide)
  · rwa [← decimal_eq_div]

/-- The coefficient of the exact value of finite low bits over a power of ten. -/
def exactCoefficient (m : Nat) : Nat :=
  significand m * (Nat.pow 2 (unitExponent m).toNat * Nat.pow 5 (-unitExponent m).toNat)

/-- A decimal that is rounded to the number: the exact value where it has one, and a decimal that is
out of range for the infinite numbers and the negative zero. -/
def decimal (x : Binary64) : Decimal :=
  let sign : Int := if x.negative then -1 else 1
  if x.isInfinite then ⟨sign, 400⟩
  else if x.magnitude = 0 then if x.negative then ⟨-1, -400⟩ else ⟨0, 0⟩
  else ⟨sign * exactCoefficient x.magnitude, -((-unitExponent x.magnitude).toNat : Int)⟩

theorem exactCoefficient_pos (hm : 0 < m) : 0 < exactCoefficient m :=
  Nat.mul_pos (significand_pos hm) (Nat.mul_pos (Nat.pow_pos (by decide)) (Nat.pow_pos (by decide)))

theorem exactCoefficient_eq (m : Nat) :
    (exactCoefficient m * 10 ^ (-((-unitExponent m).toNat : ℤ)) : ℚ) = value m := by
  have htwo := zpow_eq_div (b := 2) (by decide) (unitExponent m)
  rw [Nat.cast_ofNat] at htwo
  rw [value, exactCoefficient, htwo, zpow_neg, zpow_natCast]
  simp only [Nat.pow_eq, Nat.cast_mul, Nat.cast_pow, Nat.cast_ofNat]
  rw [show (10 : ℚ) = 2 * 5 by norm_num, mul_pow]
  field_simp

theorem lt_infiniteMagnitude {x : Binary64} (h : x.isInfinite = false) :
    x.magnitude < infiniteMagnitude := by
  have hne : x.magnitude ≠ infiniteMagnitude := by simpa [isInfinite] using h
  exact Nat.lt_of_le_of_ne x.magnitude_le hne

theorem ofDecimal_signed (x : Binary64) {c : Nat} {e : ℤ} (hc : 0 < c)
    (h : magnitudeOf c e = x.magnitude) :
    ofDecimal ⟨(if x.negative then -1 else 1) * c, e⟩ = x := by
  obtain ⟨negative, magnitude, _⟩ := x
  simp only at h
  cases negative with
  | false => simp [ofDecimal, h, hc.ne']
  | true => simp [ofDecimal, h, hc.ne', hc]

@[simp] theorem toBinary64_decimal (x : Binary64) : x.decimal.toBinary64 = x := by
  rw [Decimal.toBinary64, decimal]
  by_cases hinfinite : x.isInfinite
  · have h : magnitudeOf 1 400 = x.magnitude := (beq_iff_eq.mp hinfinite).symm
    simpa [hinfinite] using ofDecimal_signed x Nat.one_pos h
  by_cases hzero : x.magnitude = 0
  · cases hnegative : x.negative with
    | false =>
      obtain ⟨_, _, _⟩ := x
      subst hzero hnegative
      rfl
    | true =>
      have h : magnitudeOf 1 (-400) = x.magnitude := hzero.symm
      simpa [hinfinite, hzero, hnegative] using ofDecimal_signed x Nat.one_pos h
  · have hm : 0 < x.magnitude := Nat.pos_of_ne_zero hzero
    have hfinite : x.magnitude < infiniteMagnitude :=
      lt_infiniteMagnitude (Bool.eq_false_iff.mpr hinfinite)
    have h : Rounds x.magnitude (exactCoefficient x.magnitude *
        10 ^ (-((-unitExponent x.magnitude).toNat : ℤ))) := by
      rw [exactCoefficient_eq]
      exact rounds_value _
    simpa [hinfinite, hzero] using ofDecimal_signed x (exactCoefficient_pos hm)
      (magnitudeOf_of_rounds hm hfinite h)

end Binary64

end SchemaDoc
