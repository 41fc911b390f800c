import SchemaDoc.Proofs.Number.Rounding

/-! # Numbers out of range

A positive fraction lies in the interval of the number that it is rounded to, as
long as exponents are taken to have no limit. The limit is met from halfway
between the greatest finite number and the power of two behind it: there and
beyond a fraction becomes infinite.
-/

namespace SchemaDoc

namespace Binary64

variable {num den m : Nat} {q : ℚ}

theorem roundDiv_spec (num : Nat) (hden : 0 < den) :
    (roundDiv num den - 1 / 2 : ℚ) ≤ num / den ∧ (num / den : ℚ) ≤ roundDiv num den + 1 / 2 ∧
      (roundDiv num den % 2 = 1 →
        (roundDiv num den - 1 / 2 : ℚ) < num / den ∧ (num / den : ℚ) < roundDiv num den + 1 / 2) := by
  have hden' : (0 : ℚ) < den := by exact_mod_cast hden
  obtain ⟨hlow, hhigh, hstrict⟩ :
      2 * (roundDiv num den * den) ≤ 2 * num + den ∧ 2 * num ≤ 2 * (roundDiv num den * den) + den ∧
        (roundDiv num den % 2 = 1 → 2 * (roundDiv num den * den) < 2 * num + den ∧
          2 * num < 2 * (roundDiv num den * den) + den) := by
    have hdiv := Nat.div_add_mod' num den
    have hmod := Nat.mod_lt num hden
    rw [roundDiv]
    generalize num / den = quotient at *
    generalize num % den = rest at *
    have hsucc : (quotient + 1) * den = quotient * den + den := Nat.add_one_mul quotient den
    split
    · omega
    split
    · omega
    · rcases Nat.mod_two_eq_zero_or_one quotient with heven | hodd
      · rw [heven, Nat.add_zero]
        omega
      · rw [hodd]
        omega
  rw [le_div_iff₀ hden', div_le_iff₀ hden', lt_div_iff₀ hden', div_lt_iff₀ hden']
  have hlow' : (2 * (roundDiv num den * den) : ℚ) ≤ 2 * num + den := by exact_mod_cast hlow
  have hhigh' : (2 * num : ℚ) ≤ 2 * (roundDiv num den * den) + den := by exact_mod_cast hhigh
  refine ⟨by linarith, by linarith, fun hodd => ?_⟩
  obtain ⟨h₁, h₂⟩ := hstrict hodd
  have h₁' : (2 * (roundDiv num den * den) : ℚ) < 2 * num + den := by exact_mod_cast h₁
  have h₂' : (2 * num : ℚ) < 2 * (roundDiv num den * den) + den := by exact_mod_cast h₂
  exact ⟨by linarith, by linarith⟩

theorem significand_of_unit {unit : ℤ} {s : Nat} (hunit : -1074 ≤ unit) (hs : s < 2 * hiddenBit)
    (hleast : unit ≠ -1074 → hiddenBit ≤ s) :
    significand ((unit + 1074).toNat * hiddenBit + s) = s ∧
      unitExponent ((unit + 1074).toNat * hiddenBit + s) = unit := by
  rcases Nat.lt_or_ge s hiddenBit with h | h
  · obtain rfl : unit = -1074 := by
      by_contra hne
      exact absurd (hleast hne) h.not_ge
    have hzero : (-1074 + 1074 : ℤ).toNat * hiddenBit + s = s := by simp
    rw [hzero]
    exact subnormal_of_lt h
  · have hle : hiddenBit ≤ (unit + 1074).toNat * hiddenBit + s := Nat.le_add_left_of_le h
    rw [(normal_of_le hle).1, (normal_of_le hle).2]
    simp only [hiddenBit] at *
    omega

/-- In units of its last place a fraction is less than 2 ^ 53, and at least 2 ^ 52 unless the last
place is the least one. -/
theorem scaled_bounds (hnum : 0 < num) (hden : 0 < den) {unit : ℤ}
    (hunit : unit = max (floorLog2 num den - 52) (-1074)) :
    (unit ≠ -1074 → (2 : ℚ) ^ 52 ≤ num / den / 2 ^ unit) ∧ (num / den / 2 ^ unit : ℚ) < 2 ^ 53 := by
  obtain ⟨hlow, hhigh⟩ := floorLog2_spec hnum hden
  have hpos := two_zpow_pos unit
  have hscale (k : Nat) : (2 : ℚ) ^ k * 2 ^ unit = 2 ^ (k + unit) := by
    rw [zpow_add₀ (by norm_num), zpow_natCast]
  rw [le_div_iff₀ hpos, div_lt_iff₀ hpos, hscale, hscale]
  refine ⟨fun hne => ?_, ?_⟩
  · have hlog : ((52 : Nat) : ℤ) + unit = floorLog2 num den := by omega
    rwa [hlog]
  · exact hhigh.trans_le (zpow_le_zpow_right₀ (by norm_num) (by omega))

theorem Rounds.of_scaled (hlow : significand m - lowerGap m ≤ q / 2 ^ unitExponent m)
    (hhigh : q / 2 ^ unitExponent m ≤ significand m + 1 / 2)
    (hstrict : significand m % 2 = 1 → significand m - lowerGap m < q / 2 ^ unitExponent m ∧
      q / 2 ^ unitExponent m < significand m + 1 / 2) : Rounds m q := by
  have hpos := two_zpow_pos (unitExponent m)
  refine ⟨(le_div_iff₀ hpos).mp hlow, (div_le_iff₀ hpos).mp hhigh, fun hodd => ?_⟩
  exact ⟨(lt_div_iff₀ hpos).mp (hstrict hodd).1, (div_lt_iff₀ hpos).mp (hstrict hodd).2⟩

theorem IsBoundary.significand_eq (h : IsBoundary m) :
    significand m = hiddenBit ∧ unitExponent m ≠ -1074 := by
  obtain ⟨hmod, hlt⟩ := h
  rw [(normal_of_le hlt.le).1, (normal_of_le hlt.le).2]
  simp only [hiddenBit] at *
  omega

theorem rounds_of_nearest {unit : ℤ} {s : Nat} (hunit : -1074 ≤ unit) (hs : s < 2 * hiddenBit)
    (hnormal : unit ≠ -1074 → hiddenBit ≤ s) (hleast : unit ≠ -1074 → 2 ^ 52 ≤ q / 2 ^ unit)
    (hlow : s - 1 / 2 ≤ q / 2 ^ unit) (hhigh : q / 2 ^ unit ≤ s + 1 / 2)
    (hstrict : s % 2 = 1 → s - 1 / 2 < q / 2 ^ unit ∧ q / 2 ^ unit < s + 1 / 2) :
    Rounds ((unit + 1074).toNat * hiddenBit + s) q := by
  obtain ⟨hsignificand, hexponent⟩ := significand_of_unit hunit hs hnormal
  apply Rounds.of_scaled <;> rw [hsignificand, hexponent]
  · by_cases hboundary : IsBoundary ((unit + 1074).toNat * hiddenBit + s)
    · -- The interval ends sooner below a power of two, but the fraction is not below it.
      obtain ⟨heq, hne⟩ := hboundary.significand_eq
      have hcast : (s : ℚ) = 2 ^ 52 := by
        rw [← hsignificand, heq, hiddenBit]
        norm_num
      linarith [hleast (hexponent ▸ hne), lowerGap_pos ((unit + 1074).toNat * hiddenBit + s)]
    · rw [lowerGap, if_neg hboundary]
      exact hlow
  · exact hhigh
  · intro hodd
    have hboundary : ¬ IsBoundary ((unit + 1074).toNat * hiddenBit + s) := by
      intro hboundary
      rw [← hsignificand, hboundary.significand_eq.1] at hodd
      exact absurd hodd (by decide)
    rw [lowerGap, if_neg hboundary]
    exact hstrict hodd

/-- A fraction that is rounded to the next power of two is in the interval of that one, whose unit
is twice as large. -/
theorem rounds_of_carry {unit : ℤ} (hunit : -1074 ≤ unit) (hlow : 2 ^ 53 - 1 / 2 ≤ q / 2 ^ unit)
    (hmost : q / 2 ^ unit < 2 ^ 53) :
    Rounds ((unit + 1074).toNat * hiddenBit + 2 * hiddenBit) q := by
  have hcarry : (unit + 1074).toNat * hiddenBit + 2 * hiddenBit =
      (unit + 1 + 1074).toNat * hiddenBit + hiddenBit := by
    have hnext : (unit + 1 + 1074).toNat = (unit + 1074).toNat + 1 := by omega
    rw [hnext]
    ring
  obtain ⟨hsignificand, hexponent⟩ := significand_of_unit
    (by omega : -1074 ≤ unit + 1) (by decide : hiddenBit < 2 * hiddenBit) fun _ => le_rfl
  have hgap : lowerGap ((unit + 1 + 1074).toNat * hiddenBit + hiddenBit) = 1 / 4 :=
    if_pos (isBoundary_of_significand hsignificand (by omega))
  have hhalf : q / 2 ^ (unit + 1) = q / 2 ^ unit / 2 := by
    rw [zpow_add₀ (by norm_num), zpow_one, div_mul_eq_div_div]
  have hcast : (hiddenBit : ℚ) = 2 ^ 52 := by norm_num [hiddenBit]
  rw [hcarry]
  apply Rounds.of_scaled <;> rw [hsignificand, hexponent, hhalf]
  · rw [hgap, hcast]
    norm_num at hlow ⊢
    linarith
  · rw [hcast]
    linarith
  · intro hodd
    exact absurd hodd (by decide)

/-- A fraction is in the interval of low bits, and these are what it is rounded to unless they are
too large. -/
theorem exists_rounds (hnum : 0 < num) (hden : 0 < den) :
    ∃ m, Rounds m (num / den) ∧ nearestMagnitude num den = Nat.min m infiniteMagnitude := by
  obtain ⟨unit, hunit⟩ : ∃ unit : ℤ, unit = max (floorLog2 num den - 52) (-1074) := ⟨_, rfl⟩
  refine ⟨_, ?_, nearestMagnitude_eq_min hunit⟩
  obtain ⟨hleast, hmost⟩ := scaled_bounds hnum hden hunit
  obtain ⟨hlow, hhigh, hstrict⟩ := roundDiv_spec (num * Nat.pow 2 (-unit).toNat)
    (scaled_pos hden unit)
  rw [scaled_div] at hlow hhigh hstrict
  generalize roundDiv (num * Nat.pow 2 (-unit).toNat) (den * Nat.pow 2 unit.toNat) = s at *
  have hle : s ≤ 2 * hiddenBit := by
    have hlt : (s : ℚ) < 2 ^ 53 + 1 := by linarith
    rw [hiddenBit]
    exact Nat.le_of_lt_succ (by exact_mod_cast hlt)
  have hnormal : unit ≠ -1074 → hiddenBit ≤ s := by
    intro hne
    have hlt : (2 ^ 52 : ℚ) < s + 1 := by linarith [hleast hne]
    rw [hiddenBit]
    exact Nat.le_of_lt_succ (by exact_mod_cast hlt)
  rcases hle.lt_or_eq with hlt | rfl
  · exact rounds_of_nearest (by omega) hlt hnormal hleast hlow hhigh hstrict
  · refine rounds_of_carry (by omega) ?_ hmost
    have hcast : ((2 * hiddenBit : Nat) : ℚ) = 2 ^ 53 := by norm_num [hiddenBit]
    rwa [hcast] at hlow

/-- Halfway between the greatest finite number and the power of two behind it. -/
def overflow : ℚ := 2 ^ 1024 - 2 ^ 970

theorem overflow_eq : overflow = (2 ^ 53 - 1 / 2) * 2 ^ (971 : ℤ) := by
  have hpower : (2 : ℚ) ^ 1024 = 2 ^ 53 * 2 ^ 971 := by rw [← pow_add]
  have hhalf : (2 : ℚ) ^ 971 = 2 ^ 970 * 2 := pow_succ 2 970
  rw [overflow, zpow_ofNat, hpower, sub_mul, hhalf]
  generalize (2 : ℚ) ^ 970 = x
  ring

theorem overflow_lt : overflow < 10 ^ (309 : ℤ) := by
  refine lt_trans ?_ lt_huge
  rw [overflow_eq]
  exact mul_lt_mul_of_pos_right (by norm_num) (two_zpow_pos _)

theorem one_lt_overflow : 1 < overflow := by
  have hpower : (1 : ℚ) ≤ 2 ^ (971 : ℤ) := one_le_zpow₀ (by norm_num) (by decide)
  calc (1 : ℚ) < (2 ^ 53 - 1 / 2) * 1 := by norm_num
    _ ≤ overflow := by
      rw [overflow_eq]
      exact mul_le_mul_of_nonneg_left hpower (by norm_num)

theorem Rounds.lt_mul_unit (h : Rounds m q) : q < (2 ^ 53 - 1 / 2) * 2 ^ unitExponent m := by
  have hpos := two_zpow_pos (unitExponent m)
  have hs := significand_lt m
  by_cases hlast : significand m = 2 * hiddenBit - 1
  · -- The greatest significand is odd, so the end of its interval belongs to the next one.
    have hcast : (significand m : ℚ) = 2 ^ 53 - 1 := by
      rw [hlast, hiddenBit]
      norm_num
    refine (h.strict (by rw [hlast]; decide)).2.trans_eq ?_
    rw [hcast]
    ring
  · have hcast : (significand m : ℚ) ≤ 2 ^ 53 - 2 := by
      rw [hiddenBit] at hs hlast
      have hle : significand m + 2 ≤ 2 ^ 53 := by omega
      have hle' : (significand m : ℚ) + 2 ≤ 2 ^ 53 := by exact_mod_cast hle
      linarith
    exact h.high.trans_lt (mul_lt_mul_of_pos_right (by linarith) hpos)

theorem Rounds.lt_overflow (h : Rounds m q) (hm : m < infiniteMagnitude) : q < overflow := by
  have hunit : (2 : ℚ) ^ unitExponent m ≤ 2 ^ (971 : ℤ) :=
    zpow_le_zpow_right₀ (by norm_num) (unitExponent_le hm)
  refine h.lt_mul_unit.trans_le ?_
  rw [overflow_eq]
  exact mul_le_mul_of_nonneg_left hunit (by norm_num)

/-- Above the least power of two, intervals begin no sooner than those of powers of two. -/
theorem le_significand_sub_lowerGap (hm : hiddenBit < m) :
    (2 ^ 52 - 1 / 4 : ℚ) ≤ significand m - lowerGap m := by
  by_cases hboundary : IsBoundary m
  · rw [lowerGap, if_pos hboundary, hboundary.significand_eq.1, hiddenBit]
    norm_num
  · have hs : 2 ^ 52 + 1 ≤ significand m := by
      rw [(normal_of_le hm.le).1]
      simp only [IsBoundary, hiddenBit] at *
      omega
    have hcast : (2 ^ 52 + 1 : ℚ) ≤ significand m := by exact_mod_cast hs
    linarith [lowerGap_le m]

theorem Rounds.overflow_le (h : Rounds m q) (hm : infiniteMagnitude ≤ m) : overflow ≤ q := by
  have hlt : hiddenBit < m := lt_of_lt_of_le (by decide) hm
  have hleast := le_significand_sub_lowerGap hlt
  have hunit : (2 : ℚ) ^ (972 : ℤ) ≤ 2 ^ unitExponent m := by
    refine zpow_le_zpow_right₀ (by norm_num) ?_
    rw [(normal_of_le hlt.le).2]
    simp only [infiniteMagnitude, hiddenBit] at *
    omega
  calc overflow = (2 ^ 52 - 1 / 4) * 2 ^ (972 : ℤ) := by
        rw [overflow_eq, show (972 : ℤ) = 971 + 1 by norm_num, zpow_add₀ (by norm_num), zpow_one]
        ring
    _ ≤ (significand m - lowerGap m) * 2 ^ unitExponent m := by
        exact mul_le_mul hleast hunit (two_zpow_pos _).le (le_trans (by norm_num) hleast)
    _ ≤ q := h.low

/-- The intervals at and beyond the limit are those of low bits too large for a finite number. -/
theorem Rounds.overflow_le_iff (h : Rounds m q) : overflow ≤ q ↔ infiniteMagnitude ≤ m :=
  ⟨fun hq => not_lt.mp fun hm => (h.lt_overflow hm).not_ge hq, h.overflow_le⟩

theorem nearestMagnitude_eq_infinite_iff (hnum : 0 < num) (hden : 0 < den) :
    nearestMagnitude num den = infiniteMagnitude ↔ overflow ≤ num / den := by
  obtain ⟨m, hm, heq⟩ := exists_rounds hnum hden
  rw [heq, hm.overflow_le_iff]
  exact min_eq_right_iff

theorem magnitudeOf_eq_infinite_iff {c : Nat} (hc : 0 < c) (e : ℤ) :
    magnitudeOf c e = infiniteMagnitude ↔ overflow ≤ c * 10 ^ e := by
  obtain ⟨hleast, hmost⟩ := decimal_bounds hc e
  rw [magnitudeOf]
  split
  · next hlarge =>
    refine iff_of_true rfl (overflow_lt.le.trans (le_trans ?_ hleast))
    exact zpow_le_zpow_right₀ (by norm_num) (by omega)
  split
  · next hsmall =>
    refine iff_of_false (by decide) (not_le.mpr (hmost.trans (lt_of_le_of_lt ?_ one_lt_overflow)))
    exact zpow_le_one_of_nonpos₀ (by norm_num) (by omega)
  · rw [decimal_eq_div]
    exact nearestMagnitude_eq_infinite_iff (Nat.mul_pos hc (Nat.pow_pos (by decide)))
      (Nat.pow_pos (by decide))

end Binary64

namespace Decimal

def value (d : Decimal) : ℚ := d.coefficient * 10 ^ d.exponent

theorem abs_value (d : Decimal) : |d.value| = d.coefficient.natAbs * 10 ^ d.exponent := by
  have hpos : (0 : ℚ) < 10 ^ d.exponent := zpow_pos (by norm_num) _
  rw [value, abs_mul, abs_of_pos hpos, Nat.cast_natAbs, Int.cast_abs]

/-- A decimal becomes an infinite number when its absolute value is not below the limit. -/
theorem isInfinite_toBinary64_iff (d : Decimal) :
    d.toBinary64.isInfinite = true ↔ Binary64.overflow ≤ |d.value| := by
  rw [abs_value, toBinary64, Binary64.ofDecimal, Binary64.isInfinite, beq_iff_eq]
  split
  · next hzero =>
    rw [hzero, Int.natAbs_zero, Nat.cast_zero, zero_mul]
    exact iff_of_false (by decide) (not_le.mpr (zero_lt_one.trans Binary64.one_lt_overflow))
  · next hne => exact Binary64.magnitudeOf_eq_infinite_iff (Int.natAbs_pos.mpr hne) _

end Decimal

end SchemaDoc
