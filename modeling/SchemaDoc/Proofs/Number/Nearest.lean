import Mathlib.Algebra.Order.Group.Unbundled.Abs
import SchemaDoc.Proofs.Number.Overflow

/-! # The nearest binary number

A 64-bit pattern is a sign, a biased exponent and a fraction, and a finite one is a
rational number. The pattern for a decimal is the one of the nearest number, an even
one when two are equally near; from the limit on it is an infinite one. Zero has no
sign, but a decimal that is too small keeps its own. Larger decimals never have
smaller patterns.
-/

namespace SchemaDoc

open Binary64 (overflow)

namespace Pattern

def isNegative (p : Nat) : Bool := 2 ^ 63 ≤ p

/-- The biased exponent. -/
def exponent (p : Nat) : Nat := p / 2 ^ 52 % 2 ^ 11

def fraction (p : Nat) : Nat := p % 2 ^ 52

/-- The fraction with its leading bit, which only the numbers with the exponent zero lack. -/
def significand (p : Nat) : Nat := if exponent p = 0 then fraction p else 2 ^ 52 + fraction p

def IsFinite (p : Nat) : Prop := p < 2 ^ 64 ∧ exponent p < 2047

/-- A number with a sign. -/
def signed (negative : Bool) (q : ℚ) : ℚ := if negative then -q else q

/-- The number of a finite pattern. -/
def rational (p : Nat) : ℚ :=
  signed (isNegative p) (significand p * 2 ^ (max (exponent p : ℤ) 1 - 1075))

def infinity (negative : Bool) : Nat := if negative then 0xFFF0000000000000 else 0x7FF0000000000000

def zero (negative : Bool) : Nat := if negative then 2 ^ 63 else 0

/-- The order of numbers, finite or infinite; the two zeros are equal. -/
def AtMost (p p' : Nat) : Prop :=
  p = infinity true ∨ p' = infinity false ∨ IsFinite p ∧ IsFinite p' ∧ rational p ≤ rational p'

/-- The pattern that a number is rounded to. -/
structure Rounded (q : ℚ) (p : Nat) : Prop where
  infinite : 2 ^ 1024 - 2 ^ 970 ≤ |q| → p = infinity (q < 0)
  finite : |q| < 2 ^ 1024 - 2 ^ 970 → IsFinite p
  nearest : |q| < 2 ^ 1024 - 2 ^ 970 → ∀ p', IsFinite p' → |q - rational p| ≤ |q - rational p'|
  even : |q| < 2 ^ 1024 - 2 ^ 970 → ∀ p', IsFinite p' → rational p' ≠ rational p →
    |q - rational p'| = |q - rational p| → significand p % 2 = 0
  unsigned : q = 0 → p = zero false
  tiny : q ≠ 0 → |q| ≤ 2 ^ (-1075 : ℤ) → p = zero (q < 0)

section Signed

variable {q r : ℚ} {b c : Bool}

theorem abs_signed_sub_signed (b : Bool) (q r : ℚ) : |signed b q - signed b r| = |q - r| := by
  cases b with
  | false => rfl
  | true => rw [signed, signed, if_pos rfl, if_pos rfl, neg_sub_neg, abs_sub_comm]

theorem signed_signed (b c : Bool) (q : ℚ) : signed b (signed c q) = signed (b ^^ c) q := by
  cases b <;> cases c <;> simp [signed]

theorem signed_inj (b : Bool) : signed b q = signed b r ↔ q = r := by
  cases b <;> simp [signed]

theorem signed_abs (q : ℚ) : signed (decide (q < 0)) |q| = q := by
  by_cases h : q < 0
  · simp [signed, h, abs_of_neg h]
  · simp [signed, h, abs_of_nonneg (not_lt.mp h)]

end Signed

end Pattern

namespace Binary64

variable {m n : Nat} {q r : ℚ}

theorem significand_mod_two (m : Nat) : significand m % 2 = m % 2 := by
  have h := eq_exponent_add_significand m
  rw [hiddenBit] at h
  omega

/-- The next number is one unit of the last place away, and the intervals of both meet halfway. -/
theorem succ_spec (m : Nat) :
    value (m + 1) = (significand m + 1) * 2 ^ unitExponent m ∧
      (significand (m + 1) - lowerGap (m + 1)) * 2 ^ unitExponent (m + 1) =
        (significand m + 1 / 2) * 2 ^ unitExponent m := by
  have hbits := eq_exponent_add_significand m
  have hleast := neg_le_unitExponent m
  have hnormal := hiddenBit_le_significand (m := m)
  generalize hunit : unitExponent m = unit at *
  generalize hs : significand m = s at *
  rcases Nat.lt_or_ge (s + 1) (2 * hiddenBit) with hlt | hge
  · have hnext : m + 1 = (unit + 1074).toNat * hiddenBit + (s + 1) := by omega
    obtain ⟨hs', hunit'⟩ := significand_of_unit hleast hlt fun h => Nat.le_succ_of_le (hnormal h)
    rw [← hnext] at hs' hunit'
    have hgap : lowerGap (m + 1) = 1 / 2 := by
      refine if_neg fun hboundary => ?_
      obtain ⟨heq, hne⟩ := hboundary.significand_eq
      have := hnormal (hunit' ▸ hne)
      omega
    rw [value, hs', hunit', hgap]
    push_cast
    exact ⟨rfl, by ring⟩
  · -- The significand carries, and the unit of the next number is twice as large.
    obtain rfl : s = 2 * hiddenBit - 1 := by
      have := significand_lt m
      omega
    have hnext : m + 1 = (unit + 1 + 1074).toNat * hiddenBit + hiddenBit := by
      have hsucc : (unit + 1 + 1074).toNat = (unit + 1074).toNat + 1 := by omega
      rw [hsucc, hbits, hiddenBit]
      omega
    obtain ⟨hs', hunit'⟩ := significand_of_unit (by omega : -1074 ≤ unit + 1)
      (by decide : hiddenBit < 2 * hiddenBit) fun _ => le_rfl
    rw [← hnext] at hs' hunit'
    have hgap : lowerGap (m + 1) = 1 / 4 := if_pos (isBoundary_of_significand hs' (by omega))
    have hdouble : (2 : ℚ) ^ (unit + 1) = 2 * 2 ^ unit := by
      rw [zpow_add₀ (by norm_num), zpow_one, mul_comm]
    have hcast : ((2 * hiddenBit - 1 : Nat) : ℚ) = 2 * hiddenBit - 1 := by norm_num [hiddenBit]
    rw [value, hs', hunit', hgap, hdouble, hcast]
    exact ⟨by ring, by ring⟩

/-- Halfway to the next number. -/
def upperEnd (m : Nat) : ℚ := (significand m + 1 / 2) * 2 ^ unitExponent m

theorem two_mul_upperEnd (m : Nat) : 2 * upperEnd m = value m + value (m + 1) := by
  rw [(succ_spec m).1, upperEnd, value]
  ring

theorem value_lt_upperEnd (m : Nat) : value m < upperEnd m :=
  mul_lt_mul_of_pos_right (by linarith) (two_zpow_pos _)

theorem upperEnd_lt_value_succ (m : Nat) : upperEnd m < value (m + 1) := by
  linarith [two_mul_upperEnd m, value_lt_upperEnd m]

theorem value_strictMono : StrictMono value :=
  strictMono_nat_of_lt_succ fun m => (value_lt_upperEnd m).trans (upperEnd_lt_value_succ m)

theorem upperEnd_strictMono : StrictMono upperEnd :=
  strictMono_nat_of_lt_succ fun m => (upperEnd_lt_value_succ m).trans (value_lt_upperEnd (m + 1))

@[simp] theorem value_zero : value 0 = 0 := by
  rw [value, (subnormal_of_lt (by decide : 0 < hiddenBit)).1, Nat.cast_zero, zero_mul]

theorem value_nonneg (m : Nat) : 0 ≤ value m := by
  rw [← value_zero]
  exact value_strictMono.monotone (Nat.zero_le m)

theorem Rounds.le_upperEnd (h : Rounds m q) : q ≤ upperEnd m := h.high

theorem Rounds.upperEnd_le (h : Rounds (m + 1) q) : upperEnd m ≤ q := by
  rw [upperEnd, ← (succ_spec m).2]
  exact h.low

theorem Rounds.lt_upperEnd (h : Rounds m q) (hodd : m % 2 = 1) : q < upperEnd m :=
  (h.strict ((significand_mod_two m).trans hodd)).2

theorem Rounds.upperEnd_lt (h : Rounds (m + 1) q) (hodd : (m + 1) % 2 = 1) : upperEnd m < q := by
  rw [upperEnd, ← (succ_spec m).2]
  exact (h.strict ((significand_mod_two (m + 1)).trans hodd)).1

/-- Intervals stand in the order of their numbers, and a common end belongs to one of them. -/
theorem Rounds.le_of_le (hm : Rounds m q) (hn : Rounds n r) (hle : q ≤ r) : m ≤ n := by
  by_contra hlt
  obtain ⟨k, rfl⟩ := Nat.exists_eq_add_one_of_ne_zero (by omega : m ≠ 0)
  rcases (Nat.le_of_lt_succ (not_le.mp hlt)).lt_or_eq with hnk | rfl
  · have := upperEnd_strictMono hnk
    linarith [hm.upperEnd_le, hn.le_upperEnd]
  · rcases Nat.mod_two_eq_zero_or_one n with heven | hodd
    · linarith [hm.upperEnd_lt (by omega), hn.le_upperEnd]
    · linarith [hm.upperEnd_le, hn.lt_upperEnd hodd]

/-- The number of an interval is nearest to what lies in it, and an even one among equally near. -/
theorem Rounds.nearest (h : Rounds m q) (n : Nat) :
    |q - value m| ≤ |q - value n| ∧ (n ≠ m → |q - value n| = |q - value m| → m % 2 = 0) := by
  rcases Nat.lt_trichotomy m n with hlt | rfl | hlt
  · have hmid := two_mul_upperEnd m
    have hnext := value_strictMono.monotone (Nat.succ_le_of_lt hlt)
    have hhigh := h.le_upperEnd
    have hvalue := value_lt_upperEnd m
    have hfar : |q - value n| = value n - q := by
      rw [abs_sub_comm, abs_of_nonneg (by linarith)]
    rw [hfar, abs_sub_le_iff]
    refine ⟨⟨by linarith, by linarith⟩, fun _ heq => ?_⟩
    by_contra hodd
    have hstrict := h.lt_upperEnd (by omega)
    rcases abs_cases (q - value m) with ⟨habs, -⟩ | ⟨habs, -⟩ <;> linarith
  · exact ⟨le_rfl, fun hne => absurd rfl hne⟩
  · obtain ⟨k, rfl⟩ := Nat.exists_eq_add_one_of_ne_zero (by omega : m ≠ 0)
    have hmid := two_mul_upperEnd k
    have hbefore := value_strictMono.monotone (Nat.le_of_lt_succ hlt)
    have hlow := h.upperEnd_le
    have hvalue := value_lt_upperEnd k
    have hfar : |q - value n| = q - value n := abs_of_nonneg (by linarith)
    rw [hfar, abs_sub_le_iff]
    refine ⟨⟨by linarith, by linarith⟩, fun _ heq => ?_⟩
    by_contra hodd
    have hstrict := h.upperEnd_lt (by omega)
    rcases abs_cases (q - value (k + 1)) with ⟨habs, -⟩ | ⟨habs, -⟩ <;> linarith

/-- Among the numbers of both signs as well. -/
theorem Rounds.nearest_signed (h : Rounds m q) (hq : 0 < q) (b : Bool) (n : Nat) :
    |q - value m| ≤ |q - Pattern.signed b (value n)| ∧
      (Pattern.signed b (value n) ≠ value m →
        |q - Pattern.signed b (value n)| = |q - value m| → m % 2 = 0) := by
  obtain ⟨hle, heven⟩ := h.nearest n
  cases b with
  | false => exact ⟨hle, fun hne => heven fun heq => hne (heq ▸ rfl)⟩
  | true =>
    have hn := value_nonneg n
    have hfar : |q - Pattern.signed true (value n)| = q + value n := by
      rw [Pattern.signed, if_pos rfl, sub_neg_eq_add, abs_of_nonneg (by linarith)]
    have hnear : |q - value n| ≤ q + value n := abs_sub_le_iff.mpr ⟨by linarith, by linarith⟩
    rw [hfar]
    refine ⟨hle.trans hnear, fun hne heq => heven (fun hnm => hne ?_) (by linarith)⟩
    -- The negative number would be as near as its absolute value, so it would be zero.
    subst hnm
    have hzero : value n = 0 := by
      rcases abs_cases (q - value n) with ⟨habs, -⟩ | ⟨habs, -⟩ <;> linarith
    rw [hzero, Pattern.signed, if_pos rfl, neg_zero]

/-- A positive decimal is in the interval of low bits, and these are what it is rounded to unless
they are too large. -/
theorem exists_rounds_magnitudeOf {c : Nat} (hc : 0 < c) (e : ℤ) :
    ∃ m, Rounds m (c * 10 ^ e) ∧ magnitudeOf c e = Nat.min m infiniteMagnitude := by
  have hnum : 0 < c * Nat.pow 10 e.toNat := Nat.mul_pos hc (Nat.pow_pos (by decide))
  have hden : 0 < Nat.pow 10 (-e).toNat := Nat.pow_pos (by decide)
  obtain ⟨m, hm, hmin⟩ := exists_rounds hnum hden
  rw [← decimal_eq_div c e] at hm
  obtain ⟨-, hmost⟩ := decimal_bounds hc e
  by_cases hinfinite : overflow ≤ c * 10 ^ e
  · exact ⟨m, hm, ((magnitudeOf_eq_infinite_iff hc e).mpr hinfinite).trans
      (Nat.min_eq_right (hm.overflow_le_iff.mp hinfinite)).symm⟩
  have hlarge : ¬ 310 < ((Bytes.decimal c).length : ℤ) + e := by
    intro hlarge
    refine hinfinite ((magnitudeOf_eq_infinite_iff hc e).mp ?_)
    rw [magnitudeOf]
    simp only [hlarge, if_true]
  by_cases hsmall : ((Bytes.decimal c).length : ℤ) + e < -330
  · -- The decimal is less than half of the least number.
    refine ⟨0, ?_, ?_⟩
    · have hten : (10 : ℚ) ^ (((Bytes.decimal c).length : ℤ) + e) ≤ 10 ^ (-331 : ℤ) :=
        zpow_le_zpow_right₀ (by norm_num) (by omega)
      have hpos : (0 : ℚ) < c * 10 ^ e := by positivity
      have hend : upperEnd 0 = 1 / 2 * 2 ^ (-1074 : ℤ) := by
        obtain ⟨hs, hunit⟩ := subnormal_of_lt (by decide : 0 < hiddenBit)
        rw [upperEnd, hs, hunit]
        norm_num
      have hlow : (significand 0 - lowerGap 0) * 2 ^ unitExponent 0 ≤ 0 := by
        rw [(subnormal_of_lt (by decide : 0 < hiddenBit)).1]
        have hgap := lowerGap_pos 0
        exact mul_nonpos_of_nonpos_of_nonneg (by norm_num; linarith) (two_zpow_pos _).le
      refine ⟨hlow.trans hpos.le, ?_, fun hodd => absurd hodd (by decide)⟩
      rw [← upperEnd, hend]
      exact (hmost.le.trans hten).trans tiny_lt.le
    · rw [magnitudeOf]
      simp only [hlarge, hsmall, if_false, if_true, Nat.zero_min]
  · refine ⟨m, hm, ?_⟩
    rw [magnitudeOf]
    simp only [hlarge, hsmall, if_false]
    exact hmin

variable {x y : Binary64}

theorem isNegative_bits (x : Binary64) : Pattern.isNegative x.bits = x.negative := by
  have hle := x.magnitude_le
  rw [infiniteMagnitude] at hle
  rw [Pattern.isNegative, bits, signBit]
  cases x.negative with
  | false => simp; omega
  | true => simp

theorem fields_bits (x : Binary64) :
    Pattern.exponent x.bits = x.magnitude / hiddenBit ∧
      Pattern.fraction x.bits = x.magnitude % hiddenBit := by
  have hle := x.magnitude_le
  rw [infiniteMagnitude] at hle
  rw [Pattern.exponent, Pattern.fraction, bits, signBit, hiddenBit]
  cases x.negative <;> simp <;> omega

theorem isFinite_bits (h : x.isInfinite = false) : Pattern.IsFinite x.bits := by
  have hlt := lt_infiniteMagnitude h
  refine ⟨?_, ?_⟩
  · rw [infiniteMagnitude] at hlt
    rw [bits, signBit]
    split <;> omega
  · rw [(fields_bits x).1]
    simp only [infiniteMagnitude, hiddenBit] at *
    omega

theorem bits_of_isInfinite (h : x.isInfinite = true) : x.bits = Pattern.infinity x.negative := by
  rw [bits, beq_iff_eq.mp h]
  cases x.negative <;> rfl

/-- The significand of a pattern and its exponent are those of the low bits. -/
theorem significand_bits (x : Binary64) :
    Pattern.significand x.bits = significand x.magnitude ∧
      max (Pattern.exponent x.bits : ℤ) 1 - 1075 = unitExponent x.magnitude := by
  obtain ⟨hexponent, hfraction⟩ := fields_bits x
  rw [Pattern.significand, hexponent, hfraction]
  rcases Nat.lt_or_ge x.magnitude hiddenBit with h | h
  · rw [(subnormal_of_lt h).1, (subnormal_of_lt h).2, Nat.div_eq_of_lt h, Nat.mod_eq_of_lt h]
    exact ⟨rfl, rfl⟩
  · have hpos : 0 < x.magnitude / hiddenBit := Nat.div_pos h (by decide)
    rw [(normal_of_le h).1, (normal_of_le h).2, if_neg hpos.ne', Nat.add_comm]
    exact ⟨rfl, by omega⟩

theorem rational_bits (x : Binary64) :
    Pattern.rational x.bits = Pattern.signed x.negative (value x.magnitude) := by
  obtain ⟨hsignificand, hunit⟩ := significand_bits x
  rw [Pattern.rational, isNegative_bits, hsignificand, hunit, value]

theorem exists_of_isFinite {p : Nat} (h : Pattern.IsFinite p) : ∃ x : Binary64, p = x.bits := by
  obtain ⟨hlt, hexponent⟩ := h
  rw [Pattern.exponent] at hexponent
  refine ⟨⟨Pattern.isNegative p, p % 2 ^ 63, ?_⟩, ?_⟩
  · rw [infiniteMagnitude]
    omega
  · simp only [bits, signBit, Pattern.isNegative, decide_eq_true_eq]
    split <;> omega

/-- The low bits with their sign; both zeros are zero. -/
def order (x : Binary64) : ℤ := if x.negative then -x.magnitude else x.magnitude

/-- Numbers are in the order of their low bits. -/
theorem atMost_bits (h : x.order ≤ y.order) : Pattern.AtMost x.bits y.bits := by
  rw [order, order] at h
  have hx := x.magnitude_le
  have hy := y.magnitude_le
  have hpos : 0 < infiniteMagnitude := by decide
  by_cases hlow : x.isInfinite = true ∧ x.negative = true
  · exact .inl (by rw [bits_of_isInfinite hlow.1, hlow.2])
  by_cases hhigh : y.isInfinite = true ∧ y.negative = false
  · exact .inr (.inl (by rw [bits_of_isInfinite hhigh.1, hhigh.2]))
  have hfinite : x.isInfinite = false ∧ y.isInfinite = false := by
    simp only [isInfinite, beq_iff_eq, beq_eq_false_iff_ne] at *
    cases hnx : x.negative <;> cases hny : y.negative <;> simp [hnx, hny] at * <;> omega
  refine .inr (.inr ⟨isFinite_bits hfinite.1, isFinite_bits hfinite.2, ?_⟩)
  rw [rational_bits, rational_bits, Pattern.signed, Pattern.signed]
  have hvx := value_nonneg x.magnitude
  have hvy := value_nonneg y.magnitude
  cases hnx : x.negative <;> cases hny : y.negative <;>
    simp only [hnx, hny, Bool.false_eq_true, if_true, if_false] at h ⊢
  · exact value_strictMono.monotone (by omega)
  · -- Both numbers are zero.
    have hx : x.magnitude = 0 := by omega
    have hy : y.magnitude = 0 := by omega
    rw [hx, hy, value_zero, neg_zero]
  · linarith
  · exact neg_le_neg (value_strictMono.monotone (by omega))

end Binary64

namespace Decimal

open Binary64 (Rounds)

variable {d d' : Decimal}

theorem value_neg_iff : d.value < 0 ↔ d.coefficient < 0 := by
  have hpos : (0 : ℚ) < 10 ^ d.exponent := zpow_pos (by norm_num) _
  rw [value, mul_neg_iff, Int.cast_lt_zero]
  simp [hpos, hpos.not_gt]

theorem value_eq_zero_iff : d.value = 0 ↔ d.coefficient = 0 := by
  rw [value, mul_eq_zero_iff_right (zpow_ne_zero _ (by norm_num)), Int.cast_eq_zero]

theorem toBinary64_of_zero (h : d.value = 0) : d.toBinary64 = ⟨false, 0, Nat.zero_le _⟩ := by
  rw [toBinary64, Binary64.ofDecimal, if_pos (value_eq_zero_iff.mp h)]

/-- What a decimal other than zero is rounded to. -/
theorem exists_rounds_toBinary64 (h : d.value ≠ 0) :
    ∃ m, Rounds m |d.value| ∧ d.toBinary64.negative = decide (d.value < 0) ∧
      d.toBinary64.magnitude = Nat.min m infiniteMagnitude := by
  have hne := mt value_eq_zero_iff.mpr h
  obtain ⟨m, hm, hmin⟩ := Binary64.exists_rounds_magnitudeOf (Int.natAbs_pos.mpr hne) d.exponent
  rw [← abs_value] at hm
  refine ⟨m, hm, ?_, ?_⟩
  · rw [toBinary64, Binary64.ofDecimal, if_neg hne]
    exact decide_eq_decide.mpr value_neg_iff.symm
  · rw [toBinary64, Binary64.ofDecimal, if_neg hne]
    exact hmin

/-- Larger decimals are not rounded to smaller numbers. -/
theorem order_toBinary64_le (h : d.value ≤ d'.value) :
    d.toBinary64.order ≤ d'.toBinary64.order := by
  have nonneg {d : Decimal} (hd : 0 ≤ d.value) : 0 ≤ d.toBinary64.order := by
    rcases hd.lt_or_eq with hd | hd
    · obtain ⟨m, -, hnegative, -⟩ := exists_rounds_toBinary64 hd.ne'
      simp [Binary64.order, hnegative, hd.not_gt]
    · rw [toBinary64_of_zero hd.symm]
      rfl
  have nonpos {d : Decimal} (hd : d.value ≤ 0) : d.toBinary64.order ≤ 0 := by
    rcases hd.lt_or_eq with hd | hd
    · obtain ⟨m, -, hnegative, -⟩ := exists_rounds_toBinary64 hd.ne
      simp [Binary64.order, hnegative, hd]
    · rw [toBinary64_of_zero hd]
      rfl
  rcases le_or_gt d.value 0 with hd | hd
  · rcases le_or_gt 0 d'.value with hd' | hd'
    · exact (nonpos hd).trans (nonneg hd')
    · obtain ⟨m, hm, hnegative, hmagnitude⟩ := exists_rounds_toBinary64 (h.trans_lt hd').ne
      obtain ⟨n, hn, hnegative', hmagnitude'⟩ := exists_rounds_toBinary64 hd'.ne
      have hle := hn.le_of_le hm (by
        rw [abs_of_neg hd', abs_of_neg (h.trans_lt hd')]
        exact neg_le_neg h)
      have hmin : Nat.min n infiniteMagnitude ≤ Nat.min m infiniteMagnitude :=
        min_le_min_right _ hle
      simp only [Binary64.order, hnegative, hnegative', hmagnitude, hmagnitude', hd',
        h.trans_lt hd', decide_true, if_true]
      omega
  · have hd' := hd.trans_le h
    obtain ⟨m, hm, hnegative, hmagnitude⟩ := exists_rounds_toBinary64 hd.ne'
    obtain ⟨n, hn, hnegative', hmagnitude'⟩ := exists_rounds_toBinary64 hd'.ne'
    have hle := hm.le_of_le hn (by rwa [abs_of_pos hd, abs_of_pos hd'])
    have hmin : Nat.min m infiniteMagnitude ≤ Nat.min n infiniteMagnitude :=
      min_le_min_right _ hle
    simp only [Binary64.order, hnegative, hnegative', hmagnitude, hmagnitude', hd.not_gt,
      hd'.not_gt, decide_false, Bool.false_eq_true, if_false]
    omega

/-- Below the limit a decimal other than zero has the pattern of low bits and of its sign. -/
theorem exists_rounds_of_lt (h : d.value ≠ 0) (hlt : |d.value| < overflow) :
    ∃ m, Rounds m |d.value| ∧
      Pattern.rational d.toBinary64.bits =
        Pattern.signed (decide (d.value < 0)) (Binary64.value m) ∧
      Pattern.significand d.toBinary64.bits % 2 = m % 2 := by
  obtain ⟨m, hm, hnegative, hmagnitude⟩ := exists_rounds_toBinary64 h
  have hfinite : m < infiniteMagnitude :=
    not_le.mp fun hle => hlt.not_ge (hm.overflow_le_iff.mpr hle)
  have hmagnitude' : d.toBinary64.magnitude = m := hmagnitude.trans (Nat.min_eq_left hfinite.le)
  refine ⟨m, hm, ?_, ?_⟩
  · rw [Binary64.rational_bits, hnegative, hmagnitude']
  · rw [(Binary64.significand_bits _).1, hmagnitude', Binary64.significand_mod_two]

theorem nearest_toBinary64 (hlt : |d.value| < overflow) {p : Nat} (hp : Pattern.IsFinite p) :
    |d.value - Pattern.rational d.toBinary64.bits| ≤ |d.value - Pattern.rational p| ∧
      (Pattern.rational p ≠ Pattern.rational d.toBinary64.bits →
        |d.value - Pattern.rational p| = |d.value - Pattern.rational d.toBinary64.bits| →
          Pattern.significand d.toBinary64.bits % 2 = 0) := by
  by_cases hzero : d.value = 0
  · have hrational : Pattern.rational d.toBinary64.bits = 0 := by
      rw [toBinary64_of_zero hzero, Binary64.rational_bits, Binary64.value_zero]
      rfl
    rw [hrational, hzero, sub_zero, abs_zero, zero_sub, abs_neg, abs_eq_zero]
    exact ⟨abs_nonneg _, fun hne hz => absurd hz hne⟩
  · -- A sign in front of all numbers changes no distance.
    obtain ⟨m, hm, hrational, hparity⟩ := exists_rounds_of_lt hzero hlt
    obtain ⟨y, rfl⟩ := Binary64.exists_of_isFinite hp
    generalize hb : decide (d.value < 0) = b at hrational
    have hdistance (r : ℚ) : |d.value - Pattern.signed b r| = abs (|d.value| - r) := by
      rw [← Pattern.abs_signed_sub_signed b |d.value|, ← hb, Pattern.signed_abs]
    have hother : Pattern.rational y.bits =
        Pattern.signed b (Pattern.signed (b ^^ y.negative) (Binary64.value y.magnitude)) := by
      rw [Binary64.rational_bits, Pattern.signed_signed, ← Bool.xor_assoc, Bool.xor_self,
        Bool.false_xor]
    rw [hrational, hother, hdistance, hdistance, hparity, Ne, Pattern.signed_inj]
    exact hm.nearest_signed (abs_pos.mpr hzero) _ _

/-- Up to half of the least number a decimal is rounded to zero. -/
theorem magnitude_of_tiny (h : d.value ≠ 0) (htiny : |d.value| ≤ 2 ^ (-1075 : ℤ)) :
    d.toBinary64.magnitude = 0 := by
  obtain ⟨m, hm, -, hmagnitude⟩ := exists_rounds_toBinary64 h
  obtain ⟨hs, hunit⟩ := Binary64.subnormal_of_lt (by decide : 0 < Binary64.hiddenBit)
  have hhalf : (2 : ℚ) ^ (-1075 : ℤ) = 1 / 2 * 2 ^ (-1074 : ℤ) := by
    rw [show (-1075 : ℤ) = -1 + -1074 by norm_num, zpow_add₀ (by norm_num)]
    norm_num
  have hgap := Binary64.lowerGap_pos 0
  have hzero : Rounds 0 (2 ^ (-1075 : ℤ)) := by
    refine ⟨?_, ?_, fun hodd => absurd hodd (by decide)⟩
    · refine (mul_nonpos_of_nonpos_of_nonneg ?_ ?_).trans (Binary64.two_zpow_pos _).le
      · rw [hs]
        norm_num
        exact hgap.le
      · exact (Binary64.two_zpow_pos _).le
    · rw [hs, hunit, hhalf]
      norm_num
  have hle := hm.le_of_le hzero htiny
  rw [hmagnitude, Nat.le_zero.mp hle]
  rfl

theorem infinite_toBinary64 (h : overflow ≤ |d.value|) :
    d.toBinary64.bits = Pattern.infinity (decide (d.value < 0)) := by
  have hne : d.value ≠ 0 := by
    intro hzero
    rw [hzero, abs_zero] at h
    exact h.not_gt (zero_lt_one.trans Binary64.one_lt_overflow)
  obtain ⟨-, -, hnegative, -⟩ := exists_rounds_toBinary64 hne
  rw [Binary64.bits_of_isInfinite (d.isInfinite_toBinary64_iff.mpr h), hnegative]

/-- Every decimal is rounded correctly, to nearest and with ties to even, and rounding keeps the
order. -/
theorem rounded_toBinary64 (d : Decimal) :
    Pattern.Rounded d.value d.toBinary64.bits ∧
      ∀ d' : Decimal, d.value ≤ d'.value →
        Pattern.AtMost d.toBinary64.bits d'.toBinary64.bits := by
  refine ⟨?_, fun d' hle => Binary64.atMost_bits (order_toBinary64_le hle)⟩
  constructor
  case infinite => exact infinite_toBinary64
  case finite =>
    intro hlt
    exact Binary64.isFinite_bits (Bool.eq_false_iff.mpr fun hinfinite =>
      hlt.not_ge (d.isInfinite_toBinary64_iff.mp hinfinite))
  case nearest => exact fun hlt _ hp => (nearest_toBinary64 hlt hp).1
  case even => exact fun hlt _ hp => (nearest_toBinary64 hlt hp).2
  case unsigned =>
    intro hzero
    rw [toBinary64_of_zero hzero]
    rfl
  case tiny =>
    intro hne htiny
    obtain ⟨-, -, hnegative, -⟩ := exists_rounds_toBinary64 hne
    rw [Binary64.bits, magnitude_of_tiny hne htiny, hnegative]
    rfl

/-- A tie between two numbers with the least exponent, and the negative number that is too small by
the same tie. -/
example : (Decimal.mk (3 * 5 ^ 1075) (-1075)).toBinary64.bits = 2 ∧
    (Decimal.mk (-(5 ^ 1075)) (-1075)).toBinary64.bits = 2 ^ 63 := by
  decide +kernel

end Decimal

end SchemaDoc
