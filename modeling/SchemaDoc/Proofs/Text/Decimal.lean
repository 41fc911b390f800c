import Mathlib.Data.List.Basic
import Mathlib.Data.List.Induction
import Mathlib.Tactic.IntervalCases
import Mathlib.Tactic.Ring
import SchemaDoc.Text.Bytes

/-! # Decimal numerals

The numeral of a natural number has as many digits as the number needs, it does
not start with a zero unless it is the zero, and its value is the number.
-/

namespace SchemaDoc.Bytes

variable {b : UInt8} {n k : Nat}

theorem isDigit_iff : isDigit b = true ↔ 0x30 ≤ b.toNat ∧ b.toNat ≤ 0x39 := by
  simp [isDigit, UInt8.le_iff_toNat_le]

/-- The digit of a number below ten. -/
theorem digitChar_toUInt8 (h : n < 10) : (Nat.digitChar n).toNat.toUInt8 = (0x30 + n).toUInt8 := by
  interval_cases n <;> rfl

theorem toNat_digit (h : n < 10) : (0x30 + n).toUInt8.toNat = 0x30 + n := by
  simp only [Nat.toUInt8, UInt8.toNat_ofNat']
  omega

theorem decimal_of_lt (h : n < 10) : decimal n = [(0x30 + n).toUInt8] := by
  rw [decimal, Nat.toDigits_of_lt_base h, List.map_singleton, digitChar_toUInt8 h]

theorem decimal_of_le (h : 10 ≤ n) :
    decimal n = decimal (n / 10) ++ [(0x30 + n % 10).toUInt8] := by
  rw [decimal, Nat.toDigits_of_base_le (by decide) h, List.map_append, List.map_singleton,
    digitChar_toUInt8 (Nat.mod_lt n (by decide)), decimal]

theorem isDigit_of_mem_decimal (h : b ∈ decimal n) : isDigit b = true := by
  have digit {k : Nat} (hk : k < 10) : isDigit (0x30 + k).toUInt8 = true := by
    rw [isDigit_iff, toNat_digit hk]
    omega
  induction n using Nat.strong_induction_on with
  | h n ih =>
    by_cases hn : n < 10
    · rw [decimal_of_lt hn, List.mem_singleton] at h
      rw [h]
      exact digit hn
    · rw [decimal_of_le (by omega), List.mem_append, List.mem_singleton] at h
      rcases h with h | h
      · exact ih (n / 10) (by omega) h
      · rw [h]
        exact digit (Nat.mod_lt n (by decide))

theorem decimal_ne_nil (n : Nat) : decimal n ≠ [] := by
  by_cases hn : n < 10
  · simp [decimal_of_lt hn]
  · simp [decimal_of_le (Nat.le_of_not_lt hn)]

/-- The numeral of a positive number does not start with a zero. -/
theorem exists_cons_of_decimal (h : 0 < n) : ∃ b s, decimal n = b :: s ∧ b ≠ 0x30 := by
  induction n using Nat.strong_induction_on with
  | h n ih =>
    by_cases hn : n < 10
    · refine ⟨_, _, decimal_of_lt hn, fun hb => ?_⟩
      have := congrArg UInt8.toNat hb
      rw [toNat_digit hn] at this
      change 0x30 + n = 0x30 at this
      omega
    · obtain ⟨b, s, hs, hb⟩ := ih (n / 10) (by omega) (by omega)
      exact ⟨b, _, by rw [decimal_of_le (by omega), hs, List.cons_append], hb⟩

theorem length_decimal_le_iff (hk : 0 < k) : (decimal n).length ≤ k ↔ n < 10 ^ k := by
  rw [decimal, List.length_map]
  exact Nat.length_toDigits_le_iff (by decide) hk

theorem lt_pow_length_decimal (n : Nat) : n < 10 ^ (decimal n).length :=
  (length_decimal_le_iff (List.length_pos_iff.mpr (decimal_ne_nil n))).mp le_rfl

theorem pow_length_decimal_le (h : 0 < n) : 10 ^ ((decimal n).length - 1) ≤ n := by
  by_cases hlen : (decimal n).length ≤ 1
  · rw [Nat.sub_eq_zero_of_le hlen]
    exact h
  · have := mt (length_decimal_le_iff (n := n) (k := (decimal n).length - 1) (by omega)).mpr
    exact Nat.le_of_not_lt (this (by omega))

theorem digitsValue_concat (s : Bytes) (b : UInt8) :
    digitsValue (s ++ [b]) = digitsValue s * 10 + (b.toNat - 0x30) := by
  simp [digitsValue]

theorem digitsValue_append (s t : Bytes) :
    digitsValue (s ++ t) = digitsValue s * 10 ^ t.length + digitsValue t := by
  induction t using List.reverseRecOn with
  | nil => simp [digitsValue]
  | append_singleton t b ih =>
    rw [← List.append_assoc, digitsValue_concat, ih, digitsValue_concat, List.length_append,
      List.length_singleton, pow_succ]
    ring

@[simp] theorem digitsValue_decimal (n : Nat) : digitsValue (decimal n) = n := by
  induction n using Nat.strong_induction_on with
  | h n ih =>
    by_cases hn : n < 10
    · rw [decimal_of_lt hn, ← List.nil_append [_], digitsValue_concat, toNat_digit hn]
      simp [digitsValue]
    · rw [decimal_of_le (by omega), digitsValue_concat, ih (n / 10) (by omega),
        toNat_digit (Nat.mod_lt n (by decide))]
      omega

theorem digitsValue_zeros (k : Nat) : digitsValue (List.replicate k 0x30) = 0 := by
  induction k with
  | zero => rfl
  | succ k ih => rw [List.replicate_succ', digitsValue_concat, ih]; rfl

private theorem forall_mem_concat {s : Bytes} :
    (∀ c ∈ s ++ [b], isDigit c = true) ↔
      (∀ c ∈ s, isDigit c = true) ∧ 0x30 ≤ b.toNat ∧ b.toNat ≤ 0x39 := by
  rw [List.forall_mem_append, List.forall_mem_singleton, isDigit_iff]

theorem digitsValue_lt {s : Bytes} (h : ∀ b ∈ s, isDigit b = true) :
    digitsValue s < 10 ^ s.length := by
  induction s using List.reverseRecOn with
  | nil => decide
  | append_singleton s b ih =>
    obtain ⟨hs, hb⟩ := forall_mem_concat.mp h
    have hlt := ih hs
    rw [digitsValue_concat, List.length_append, List.length_singleton, pow_succ]
    omega

theorem digitsValue_pos_iff {s : Bytes} (h : ∀ b ∈ s, isDigit b = true) :
    0 < digitsValue s ↔ s.any (· != 0x30) = true := by
  induction s using List.reverseRecOn with
  | nil => decide
  | append_singleton s b ih =>
    obtain ⟨hs, hb⟩ := forall_mem_concat.mp h
    have hzero : b = 0x30 ↔ b.toNat = 0x30 := ⟨fun h => h ▸ rfl, fun h => UInt8.toNat_inj.mp h⟩
    rw [digitsValue_concat, List.any_append, Bool.or_eq_true, ← ih hs, List.any_cons,
      List.any_nil, Bool.or_false, bne_iff_ne, Ne, hzero]
    omega

/-- Digits that do not start with a zero have a great value. -/
theorem pow_le_digitsValue (hb : isDigit b = true) (hne : b ≠ 0x30) (s : Bytes) :
    10 ^ s.length ≤ digitsValue (b :: s) := by
  have hpos : 0 < digitsValue [b] := by
    rw [digitsValue_pos_iff (List.forall_mem_singleton.mpr hb)]
    simpa using hne
  rw [← List.singleton_append, digitsValue_append]
  exact (Nat.le_mul_of_pos_left _ hpos).trans (Nat.le_add_right _ _)

/-- Among digits of one length the value tells the digits. -/
theorem digitsValue_inj {s t : Bytes} (hs : ∀ b ∈ s, isDigit b = true)
    (ht : ∀ b ∈ t, isDigit b = true) (hlength : s.length = t.length)
    (h : digitsValue s = digitsValue t) : s = t := by
  induction s using List.reverseRecOn generalizing t with
  | nil => exact (List.eq_nil_of_length_eq_zero hlength.symm).symm
  | append_singleton s b ih =>
    rcases List.eq_nil_or_concat' t with rfl | ⟨t, c, rfl⟩
    · simp at hlength
    · obtain ⟨hs, hb⟩ := forall_mem_concat.mp hs
      obtain ⟨ht, hc⟩ := forall_mem_concat.mp ht
      rw [digitsValue_concat, digitsValue_concat] at h
      simp only [List.length_append, List.length_singleton, Nat.add_right_cancel_iff] at hlength
      rw [ih hs ht hlength (by omega), UInt8.toNat_inj.mp (by omega : b.toNat = c.toNat)]

end SchemaDoc.Bytes
