import SchemaDoc.Number.Style
import SchemaDoc.Proofs.Grammar.Numeral
import SchemaDoc.Proofs.Number.Shortest

/-! # Numbers in JSON

A number in a JSON text is a minus sign or none, a coefficient and a power of
ten. Read as a binary number it is the nearest one with the same sign. Both
notations of a binary number are numbers of the grammar and are read back as the
binary number they were written for.
-/

namespace SchemaDoc

open Grammar

namespace Json

/-- The number `coefficient * 10 ^ exponent` with a sign, which zero has as well. -/
structure Number where
  negative : Bool
  coefficient : Nat
  exponent : Int
deriving DecidableEq, Repr

namespace Number

variable {sign whole fraction exponent : Bytes}

/-- What a literal `-? digits (. digits)? (e [+-]? digits)?` denotes. -/
def ofLiteral (literal : Bytes) : Number :=
  let unsigned := literal.dropWhile (· == 0x2D)
  let mantissa := unsigned.takeWhile (!isExponentMark ·)
  let power := Decimal.signedValue ((unsigned.dropWhile (!isExponentMark ·)).drop 1)
  let whole := mantissa.takeWhile (· != 0x2E)
  let fraction := (mantissa.dropWhile (· != 0x2E)).drop 1
  ⟨literal.head? == some 0x2D, Bytes.digitsValue (whole ++ fraction), power - fraction.length⟩

def value (n : Number) : ℚ :=
  (if n.negative then -1 else 1) * (n.coefficient * 10 ^ n.exponent)

/-- The nearest binary number; a zero keeps its sign. -/
def toBinary64 (n : Number) : Binary64 :=
  if n.coefficient = 0 then ⟨n.negative, 0, Nat.zero_le _⟩
  else ⟨n.negative, Binary64.magnitudeOf n.coefficient n.exponent, Binary64.magnitudeOf_le _ _⟩

/-- A literal is read from its parts: the digits make the coefficient, the digits behind the point
count against the power of ten. -/
theorem ofLiteral_parts (hsign : IsMinus sign) (hwhole : IsDigits whole)
    (hfraction : IsFraction fraction) (hexponent : IsExponent exponent) :
    ofLiteral (sign ++ (whole ++ (fraction ++ exponent))) =
      ⟨!sign.isEmpty, Bytes.digitsValue (whole ++ fraction.drop 1),
        Decimal.signedValue (exponent.drop 1) - (fraction.drop 1).length⟩ := by
  obtain ⟨hne, hdigits⟩ := hwhole
  have hunsigned : (sign ++ (whole ++ (fraction ++ exponent))).dropWhile (· == 0x2D) =
      whole ++ (fraction ++ exponent) := by
    apply dropWhile_append_of_stops
    · rcases hsign with rfl | rfl <;> simp
    · obtain ⟨b, s, rfl⟩ := List.exists_cons_of_ne_nil hne
      simpa using (ne_of_isDigit (hdigits b (by simp))).1
  have hnegative : ((sign ++ (whole ++ (fraction ++ exponent))).head? == some 0x2D) =
      !sign.isEmpty := by
    rcases hsign with rfl | rfl
    · obtain ⟨b, s, rfl⟩ := List.exists_cons_of_ne_nil hne
      simpa using (ne_of_isDigit (hdigits b (by simp))).1
    · rfl
  obtain ⟨htake, hdrop, hwhole, hbehind⟩ := cut_parts
    (fun b hb => (ne_of_isDigit (hdigits b hb)).2) hfraction hexponent
  rw [ofLiteral]
  rw [hunsigned, hnegative, htake, hdrop, hwhole, hbehind]

theorem signedValue_nil : Decimal.signedValue [] = 0 := rfl

/-- A text without a sign that denotes a number. -/
def Denotes (s : Bytes) (q : ℚ) : Prop :=
  ∃ whole fraction exponent, IsWhole whole ∧ IsFraction fraction ∧ IsExponent exponent ∧
    s = whole ++ (fraction ++ exponent) ∧
    q = Bytes.digitsValue (whole ++ fraction.drop 1) *
      10 ^ (Decimal.signedValue (exponent.drop 1) - (fraction.drop 1).length)

/-- A text without a sign that denotes a number and ends in a power of ten, which is zero where none
is written. -/
def DenotesAt (s : Bytes) (power : Int) (q : ℚ) : Prop :=
  ∃ whole fraction exponent, IsWhole whole ∧ IsFraction fraction ∧ IsExponent exponent ∧
    s = whole ++ (fraction ++ exponent) ∧ Decimal.signedValue (exponent.drop 1) = power ∧
    q = Bytes.digitsValue (whole ++ fraction.drop 1) * 10 ^ (power - (fraction.drop 1).length)

theorem DenotesAt.denotes {s : Bytes} {power : Int} {q : ℚ} (h : DenotesAt s power q) :
    Denotes s q := by
  obtain ⟨whole, fraction, exponent, hwhole, hfraction, hexponent, hs, rfl, hq⟩ := h
  exact ⟨whole, fraction, exponent, hwhole, hfraction, hexponent, hs, hq⟩

/-- The minus sign of a number, if it has one. -/
def minusSign (negative : Bool) : Bytes := if negative then bytes "-" else []

theorem isMinus_minusSign (negative : Bool) : IsMinus (minusSign negative) := by
  cases negative with
  | false => exact .inl rfl
  | true => exact .inr rfl

@[simp] theorem isEmpty_minusSign (negative : Bool) : (minusSign negative).isEmpty = !negative := by
  cases negative <;> rfl

section Denotes

variable {s : Bytes} {q : ℚ} {d : Digits} {m : Nat}

theorem isNumber_of_denotes (h : Denotes s q) (negative : Bool) :
    IsNumber (minusSign negative ++ s) := by
  obtain ⟨whole, fraction, exponent, hwhole, hfraction, hexponent, rfl, -⟩ := h
  exact ⟨_, whole, fraction, exponent, isMinus_minusSign negative, hwhole, hfraction, hexponent,
    rfl⟩

/-- What is read from a text with a sign in front of it. -/
theorem exists_of_denotes (h : Denotes s q) (negative : Bool) :
    ∃ c e, ofLiteral (minusSign negative ++ s) = ⟨negative, c, e⟩ ∧ q = c * 10 ^ e := by
  obtain ⟨whole, fraction, exponent, hwhole, hfraction, hexponent, rfl, rfl⟩ := h
  refine ⟨_, _, ?_, rfl⟩
  rw [ofLiteral_parts (isMinus_minusSign negative) (isDigits_of_isWhole hwhole) hfraction hexponent,
    isEmpty_minusSign, Bool.not_not]

theorem value_of_denotes (h : Denotes s q) (negative : Bool) :
    (ofLiteral (minusSign negative ++ s)).value = (if negative then -1 else 1) * q := by
  obtain ⟨c, e, hread, rfl⟩ := exists_of_denotes h negative
  rw [hread, value]

/-- A text of a number that is rounded to a binary number is read as the binary number. -/
theorem toBinary64_of_denotes {x : Binary64} (h : Denotes s q) (hm : 0 < x.magnitude)
    (hfinite : x.isInfinite = false) (hq : Binary64.Rounds x.magnitude q) :
    (ofLiteral (minusSign x.negative ++ s)).toBinary64 = x := by
  obtain ⟨c, e, hread, rfl⟩ := exists_of_denotes h x.negative
  have hlt := Binary64.lt_infiniteMagnitude hfinite
  rw [hread, toBinary64, if_neg (Binary64.pos_of_rounds hm hlt hq).ne']
  simp only [Binary64.magnitudeOf_of_rounds hm hlt hq]

theorem isWhole_decimal (n : Nat) : IsWhole (Bytes.decimal n) := by
  by_cases hn : n = 0
  · rw [hn]
    exact .inl rfl
  · obtain ⟨b, s, hbs, hb⟩ := Bytes.exists_cons_of_decimal (Nat.pos_of_ne_zero hn)
    exact .inr ⟨b, s, hbs, hb, fun c hc => Bytes.isDigit_of_mem_decimal (hbs ▸ hc)⟩

theorem decimal_denotes (n : Nat) : Denotes (Bytes.decimal n) n := by
  refine ⟨Bytes.decimal n, [], [], isWhole_decimal n, .inl rfl, .inl rfl, by simp, ?_⟩
  simp [signedValue_nil]

theorem signed_eq (k : Int) :
    Bytes.signed k = minusSign (k < 0) ++ Bytes.decimal k.natAbs := by
  cases k with
  | ofNat n => simp [Bytes.signed, minusSign]
  | negSucc n => simp [Bytes.signed, minusSign]

theorem isNumber_signed (k : Int) : IsNumber (Bytes.signed k) := by
  rw [signed_eq]
  exact isNumber_of_denotes (decimal_denotes _) _

theorem value_signed (k : Int) : (ofLiteral (Bytes.signed k)).value = k := by
  rw [signed_eq, value_of_denotes (decimal_denotes _)]
  by_cases hk : k < 0
  · have habs : ((k.natAbs : ℤ) : ℚ) = -k := by
      rw [Int.ofNat_natAbs_of_nonpos hk.le, Int.cast_neg]
    rw [Int.cast_natCast] at habs
    simp [hk, habs]
  · have habs : ((k.natAbs : ℤ) : ℚ) = k := by
      rw [Int.natAbs_of_nonneg (not_lt.mp hk)]
    rw [Int.cast_natCast] at habs
    simp [hk, habs]

private theorem bytes_zero : bytes "0" = [0x30] := rfl

private theorem bytes_point : bytes "." = [0x2E] := rfl

private theorem bytes_plus : bytes "e+" = [0x65, 0x2B] := rfl

private theorem bytes_minus : bytes "e-" = [0x65, 0x2D] := rfl

theorem digitsValue_zeros_append (k : Nat) (s : Bytes) :
    Bytes.digitsValue (List.replicate k 0x30 ++ s) = Bytes.digitsValue s := by
  rw [Bytes.digitsValue_append, Bytes.digitsValue_zeros, Nat.zero_mul, Nat.zero_add]

theorem isDigit_zeros (k : Nat) :
    ∀ b ∈ List.replicate k (0x30 : UInt8), Bytes.isDigit b = true := by
  intro b hb
  rw [(List.mem_replicate.mp hb).2]
  rfl

theorem positional_denotesAt (h : d.Spell m) :
    DenotesAt (NumberStyle.positional d) 0 d.value := by
  obtain ⟨digits, point⟩ := d
  obtain ⟨hdigit, ⟨b, s, hdigits, hb⟩, -⟩ := h
  simp only at hdigit hdigits
  have hne : digits ≠ [] := by simp [hdigits]
  rw [Digits.value, NumberStyle.positional]
  dsimp only
  by_cases hpoint : point ≤ 0
  · -- All digits stand behind the point, with zeros in front of them.
    rw [Int.toNat_of_nonpos hpoint, List.take_zero, List.drop_zero]
    refine ⟨[0x30], 0x2E :: (List.replicate (-point).toNat 0x30 ++ digits), [], .inl rfl,
      .inr ⟨_, ⟨by simp [hne], List.forall_mem_append.mpr ⟨isDigit_zeros _, hdigit⟩⟩, rfl⟩,
      .inl rfl, ?_, rfl, ?_⟩
    · simp [hne, NumberStyle.zeros, bytes_zero, bytes_point]
    · rw [List.drop_succ_cons, List.drop_zero, ← List.replicate_one, digitsValue_zeros_append,
        digitsValue_zeros_append, List.length_append, List.length_replicate]
      congr 2
      omega
  by_cases hlength : digits.length ≤ point.toNat
  · -- All digits stand in front of the point, with zeros behind them.
    rw [List.take_of_length_le hlength, List.drop_of_length_le hlength]
    refine ⟨digits ++ NumberStyle.zeros (point - digits.length), [], [], ?_, .inl rfl, .inl rfl,
      ?_, rfl, ?_⟩
    · refine .inr ⟨b, s ++ NumberStyle.zeros (point - digits.length), by simp [hdigits], hb, ?_⟩
      rw [← List.cons_append, ← hdigits]
      exact List.forall_mem_append.mpr ⟨hdigit, isDigit_zeros _⟩
    · simp [hne]
    · rw [List.drop_nil, List.append_nil, Bytes.digitsValue_append, NumberStyle.zeros,
        Bytes.digitsValue_zeros, List.length_replicate]
      have hexponent : point - digits.length = ((point - digits.length).toNat : ℤ) := by omega
      nth_rewrite 1 [hexponent]
      simp
  · -- The point stands between two digits.
    have htake : digits.take point.toNat = b :: s.take (point.toNat - 1) := by
      rw [hdigits, List.take_cons (by omega)]
    have hdrop : digits.drop point.toNat ≠ [] := by
      rw [Ne, List.drop_eq_nil_iff]
      exact hlength
    have hzeros : NumberStyle.zeros (point - (digits.take point.toNat).length) = [] := by
      rw [NumberStyle.zeros, List.length_take, List.replicate_eq_nil_iff]
      omega
    have hzeros' : NumberStyle.zeros (-point) = [] := by
      rw [NumberStyle.zeros, List.replicate_eq_nil_iff]
      omega
    refine ⟨digits.take point.toNat, 0x2E :: digits.drop point.toNat, [], ?_,
      .inr ⟨_, ⟨hdrop, fun c hc => hdigit c (List.mem_of_mem_drop hc)⟩, rfl⟩, .inl rfl, ?_, rfl,
      ?_⟩
    · refine .inr ⟨b, _, htake, hb, ?_⟩
      rw [← htake]
      exact fun c hc => hdigit c (List.mem_of_mem_take hc)
    · rw [hzeros, hzeros', if_neg (by simp [htake]), if_neg (by simpa using hlength)]
      simp [bytes_point]
    · rw [List.drop_succ_cons, List.drop_zero, List.take_append_drop, List.length_drop]
      congr 2
      omega

theorem scientific_denotesAt (k : Nat) (h : d.Spell m) :
    DenotesAt (NumberStyle.scientific k d) (d.point - 1) d.value := by
  obtain ⟨digits, point⟩ := d
  obtain ⟨hdigit, ⟨b, s, rfl, hb⟩, -⟩ := h
  simp only at hdigit
  rw [Digits.value, NumberStyle.scientific]
  dsimp only
  generalize hwritten : List.replicate (k - (Bytes.decimal (point - 1).natAbs).length) 0x30 ++
    Bytes.decimal (point - 1).natAbs = written
  have hvalue : Bytes.digitsValue written = (point - 1).natAbs := by
    rw [← hwritten, digitsValue_zeros_append, Bytes.digitsValue_decimal]
  have hpower : IsDigits written := by
    rw [← hwritten]
    exact ⟨by simp [Bytes.decimal_ne_nil], List.forall_mem_append.mpr
      ⟨isDigit_zeros _, fun _ => Bytes.isDigit_of_mem_decimal⟩⟩
  have hfraction : IsFraction (if s = [] then [] else 0x2E :: s) := by
    by_cases hs : s = []
    · exact .inl (if_pos hs)
    · exact .inr ⟨s, ⟨hs, fun c hc => hdigit c (by simp [hc])⟩, if_neg hs⟩
  have hdrop : (if s = [] then [] else 0x2E :: s).drop 1 = s := by
    by_cases hs : s = [] <;> simp [hs]
  have hsigned : Decimal.signedValue ((if point - 1 < 0 then [0x2D] else [0x2B]) ++ written) =
      point - 1 := by
    by_cases hpoint : point - 1 < 0
    · rw [if_pos hpoint, List.singleton_append, Decimal.signedValue, hvalue]
      omega
    · rw [if_neg hpoint, List.singleton_append, Decimal.signedValue, hvalue]
      omega
  refine ⟨[b], if s = [] then [] else 0x2E :: s,
    0x65 :: ((if point - 1 < 0 then [0x2D] else [0x2B]) ++ written),
    .inr ⟨b, [], rfl, hb, fun c hc => hdigit c (by simp_all)⟩, hfraction,
    .inr ⟨0x65, _, written, rfl, ?_, hpower, rfl⟩, ?_, ?_, ?_⟩
  · by_cases hpoint : point - 1 < 0
    · exact .inr (.inr (if_pos hpoint))
    · exact .inr (.inl (if_neg hpoint))
  · rw [List.append_assoc, hwritten]
    by_cases hs : s = [] <;> by_cases hpoint : point - 1 < 0 <;>
      simp [hs, hpoint, bytes_point, bytes_plus, bytes_minus]
  · rw [List.drop_succ_cons, List.drop_zero, hsigned]
  · rw [hdrop, List.singleton_append, List.length_cons]
    congr 2
    omega

/-- What is written for a number other than zero is its sign and its shortest digits with no power of
ten or with that of the leading digit. -/
theorem exists_writeAt (n : NumberStyle) {x : Binary64} (hm : 0 < x.magnitude)
    (hfinite : x.isInfinite = false) :
    ∃ s power, n.write x = minusSign x.negative ++ s ∧
      DenotesAt s power (Digits.shortest x).value ∧
      (power = 0 ∨ power = (Digits.shortest x).point - 1) := by
  have hspell := Digits.spell_shortest hm hfinite
  have hwrite (s : Bytes) : (if x.negative then bytes "-" else []) ++ s =
      minusSign x.negative ++ s := rfl
  rw [NumberStyle.write, hwrite]
  split
  · exact ⟨_, 0, rfl, positional_denotesAt hspell, .inl rfl⟩
  · exact ⟨_, _, rfl, scientific_denotesAt n.exponentDigits hspell, .inr rfl⟩

theorem write_zero (n : NumberStyle) {x : Binary64} (hm : x.magnitude = 0) :
    n.write x = minusSign x.negative ++ Bytes.decimal 0 := by
  have hshortest : Digits.shortest x = ⟨[], 0⟩ := if_pos hm
  rw [NumberStyle.write, hshortest]
  rfl

/-- A finite number is written as a number of the grammar, which is read as the number. -/
theorem isNumber_write (n : NumberStyle) {x : Binary64} (hfinite : x.isInfinite = false) :
    IsNumber (n.write x) ∧ (ofLiteral (n.write x)).toBinary64 = x := by
  by_cases hm : x.magnitude = 0
  · rw [write_zero n hm]
    refine ⟨isNumber_of_denotes (decimal_denotes 0) _, ?_⟩
    obtain ⟨c, e, hread, hzero⟩ := exists_of_denotes (decimal_denotes 0) x.negative
    have hc : c = 0 := by
      rw [Nat.cast_zero, eq_comm, mul_eq_zero] at hzero
      exact_mod_cast hzero.resolve_right (zpow_ne_zero e (by norm_num))
    rw [hread, toBinary64, if_pos hc]
    obtain ⟨negative, magnitude, _⟩ := x
    subst hm
    rfl
  · have hpos := Nat.pos_of_ne_zero hm
    obtain ⟨s, power, hs, hdenotes, -⟩ := exists_writeAt n hpos hfinite
    rw [hs]
    exact ⟨isNumber_of_denotes hdenotes.denotes _, toBinary64_of_denotes hdenotes.denotes hpos
      hfinite (Digits.spell_shortest hpos hfinite).rounds⟩

end Denotes

end Number

end Json

end SchemaDoc
