import SchemaDoc.Text.Character

/-! # UTF-8 sequences and the characters read from them

A well-formed sequence and its code point determine each other, and no sequence
is a proper beginning or a proper end of another one. Reading one character from
either end of a text therefore finds exactly the sequence that stands there.
-/

namespace SchemaDoc.Character

variable {a b c d : UInt8} {code : Nat} {s : Bytes}

/-- The code points that have a UTF-8 sequence: all but the surrogates. -/
def IsScalar (code : Nat) : Prop := code < 0xD800 ∨ (0xE000 ≤ code ∧ code < 0x110000)

theorem isTail_iff : isTail b = true ↔ 0x80 ≤ b.toNat ∧ b.toNat < 0xC0 := by
  simp [isTail, UInt8.le_iff_toNat_le, UInt8.lt_iff_toNat_lt]

private theorem tailBits_eq : tailBits b = b.toNat - 0x80 := rfl

private theorem ite_some_eq_some {p : Prop} [Decidable p] {x y : Nat} :
    (if p then some x else none) = some y ↔ p ∧ y = x := by
  split <;> simp_all [eq_comm]

theorem scalar?_one : scalar? [a] = some code ↔ a.toNat < 0x80 ∧ code = a.toNat := by
  rw [scalar?, ite_some_eq_some, UInt8.lt_iff_toNat_lt]
  rfl

theorem scalar?_two : scalar? [a, b] = some code ↔
    0xC2 ≤ a.toNat ∧ a.toNat < 0xE0 ∧ (0x80 ≤ b.toNat ∧ b.toNat < 0xC0) ∧
      code = (a.toNat - 0xC0) * 0x40 + (b.toNat - 0x80) := by
  rw [scalar?, ite_some_eq_some]
  simp only [Bool.and_eq_true, decide_eq_true_eq, isTail_iff, tailBits_eq, UInt8.le_iff_toNat_le,
    UInt8.lt_iff_toNat_lt, UInt8.reduceToNat, and_assoc]

theorem scalar?_three : scalar? [a, b, c] = some code ↔
    0xE0 ≤ a.toNat ∧ a.toNat < 0xF0 ∧ (0x80 ≤ b.toNat ∧ b.toNat < 0xC0) ∧
      (0x80 ≤ c.toNat ∧ c.toNat < 0xC0) ∧ 0x800 ≤ code ∧ ¬ (0xD800 ≤ code ∧ code < 0xE000) ∧
      code = (a.toNat - 0xE0) * 0x1000 + (b.toNat - 0x80) * 0x40 + (c.toNat - 0x80) := by
  rw [scalar?, ite_some_eq_some, tailBits_eq, tailBits_eq]
  generalize (a.toNat - 0xE0) * 0x1000 + (b.toNat - 0x80) * 0x40 + (c.toNat - 0x80) = x
  simp only [Bool.and_eq_true, decide_eq_true_eq, isTail_iff, UInt8.le_iff_toNat_le,
    UInt8.lt_iff_toNat_lt, UInt8.reduceToNat, Bool.not_eq_true', Bool.and_eq_false_iff,
    decide_eq_false_iff_not]
  constructor <;> intro h <;> omega

theorem scalar?_four : scalar? [a, b, c, d] = some code ↔
    0xF0 ≤ a.toNat ∧ a.toNat < 0xF5 ∧ (0x80 ≤ b.toNat ∧ b.toNat < 0xC0) ∧
      (0x80 ≤ c.toNat ∧ c.toNat < 0xC0) ∧ (0x80 ≤ d.toNat ∧ d.toNat < 0xC0) ∧
      0x10000 ≤ code ∧ code < 0x110000 ∧
      code = (a.toNat - 0xF0) * 0x40000 + (b.toNat - 0x80) * 0x1000 + (c.toNat - 0x80) * 0x40 +
        (d.toNat - 0x80) := by
  rw [scalar?, ite_some_eq_some, tailBits_eq, tailBits_eq, tailBits_eq]
  generalize (a.toNat - 0xF0) * 0x40000 + (b.toNat - 0x80) * 0x1000 + (c.toNat - 0x80) * 0x40 +
    (d.toNat - 0x80) = x
  simp only [Bool.and_eq_true, decide_eq_true_eq, isTail_iff, UInt8.le_iff_toNat_le,
    UInt8.lt_iff_toNat_lt, UInt8.reduceToNat]
  constructor <;> intro h <;> omega

/-- The shapes of a well-formed sequence. -/
theorem scalar?_shape (h : scalar? s = some code) :
    (∃ a, s = [a]) ∨ (∃ a b, s = [a, b]) ∨ (∃ a b c, s = [a, b, c]) ∨
      ∃ a b c d, s = [a, b, c, d] := by
  match s, h with
  | [a], _ => exact .inl ⟨a, rfl⟩
  | [a, b], _ => exact .inr (.inl ⟨a, b, rfl⟩)
  | [a, b, c], _ => exact .inr (.inr (.inl ⟨a, b, c, rfl⟩))
  | [a, b, c, d], _ => exact .inr (.inr (.inr ⟨a, b, c, d, rfl⟩))
  | [], h => simp [scalar?] at h
  | _ :: _ :: _ :: _ :: _ :: _, h => simp [scalar?] at h

private theorem toNat_toUInt8 {n : Nat} (h : n < 256) : n.toUInt8.toNat = n := by
  simp [Nat.toUInt8, UInt8.toNat_ofNat', Nat.mod_eq_of_lt h]

private theorem toUInt8_eq {n : Nat} (h : b.toNat = n) : n.toUInt8 = b := by
  rw [← h]
  exact UInt8.ofNat_toNat

theorem encode_of_isScalar (h : IsScalar code) :
    encode code =
      if code < 0x80 then [code.toUInt8]
      else if code < 0x800 then
        [(0xC0 + code / 0x40).toUInt8, (0x80 + code % 0x40).toUInt8]
      else if code < 0x10000 then
        [(0xE0 + code / 0x1000).toUInt8, (0x80 + code / 0x40 % 0x40).toUInt8,
          (0x80 + code % 0x40).toUInt8]
      else
        [(0xF0 + code / 0x40000).toUInt8, (0x80 + code / 0x1000 % 0x40).toUInt8,
          (0x80 + code / 0x40 % 0x40).toUInt8, (0x80 + code % 0x40).toUInt8] := by
  have kept : ¬ (0x110000 ≤ code || (0xD800 ≤ code && code < 0xE000)) = true := by
    simp only [Bool.or_eq_true, Bool.and_eq_true, decide_eq_true_eq]
    rcases h with h | h <;> omega
  rw [encode]
  simp only [kept, Bool.false_eq_true, if_false]

theorem scalar?_encode (h : IsScalar code) : scalar? (encode code) = some code := by
  have hlt : code < 0x110000 := by rcases h with h | h <;> omega
  have tail (n : Nat) : (0x80 + n % 0x40).toUInt8.toNat = 0x80 + n % 0x40 :=
    toNat_toUInt8 (by omega)
  rw [encode_of_isScalar h]
  split
  · rw [scalar?_one, toNat_toUInt8 (by omega)]
    omega
  · split
    · rw [scalar?_two, tail, toNat_toUInt8 (by omega)]
      omega
    · split
      · rw [scalar?_three, tail, tail, toNat_toUInt8 (by omega)]
        rcases h with h | h <;> omega
      · rw [scalar?_four, tail, tail, tail, toNat_toUInt8 (by omega)]
        omega

theorem isScalar_of_scalar? (h : scalar? s = some code) : IsScalar code := by
  unfold IsScalar
  rcases scalar?_shape h with ⟨a, rfl⟩ | ⟨a, b, rfl⟩ | ⟨a, b, c, rfl⟩ | ⟨a, b, c, d, rfl⟩
  · rw [scalar?_one] at h; omega
  · rw [scalar?_two] at h; omega
  · rw [scalar?_three] at h; omega
  · rw [scalar?_four] at h; omega

theorem eq_encode_of_scalar? (h : scalar? s = some code) : s = encode code := by
  rw [encode_of_isScalar (isScalar_of_scalar? h)]
  rcases scalar?_shape h with ⟨a, rfl⟩ | ⟨a, b, rfl⟩ | ⟨a, b, c, rfl⟩ | ⟨a, b, c, d, rfl⟩
  · rw [scalar?_one] at h
    rw [if_pos (by omega), toUInt8_eq h.2.symm]
  · rw [scalar?_two] at h
    rw [if_neg (by omega), if_pos (by omega), toUInt8_eq (b := a) (by omega),
      toUInt8_eq (b := b) (by omega)]
  · rw [scalar?_three] at h
    rw [if_neg (by omega), if_neg (by omega), if_pos (by omega), toUInt8_eq (b := a) (by omega),
      toUInt8_eq (b := b) (by omega), toUInt8_eq (b := c) (by omega)]
  · rw [scalar?_four] at h
    rw [if_neg (by omega), if_neg (by omega), if_neg (by omega), toUInt8_eq (b := a) (by omega),
      toUInt8_eq (b := b) (by omega), toUInt8_eq (b := c) (by omega),
      toUInt8_eq (b := d) (by omega)]

private theorem scalar?_nil_ne (x : Nat) : ¬ scalar? [] = some x := by simp [scalar?]

/-- A sequence is one byte that is no tail and then tails only. -/
theorem exists_cons_of_scalar? (h : scalar? s = some code) :
    ∃ a r, s = a :: r ∧ isTail a = false ∧ ∀ b ∈ r, isTail b = true := by
  simp only [Bool.eq_false_iff, Ne, isTail_iff]
  rcases scalar?_shape h with ⟨a, rfl⟩ | ⟨a, b, rfl⟩ | ⟨a, b, c, rfl⟩ | ⟨a, b, c, d, rfl⟩
  · rw [scalar?_one] at h
    exact ⟨a, [], rfl, by omega, nofun⟩
  · rw [scalar?_two] at h
    exact ⟨a, [b], rfl, by omega, by simpa using h.2.2.1⟩
  · rw [scalar?_three] at h
    exact ⟨a, [b, c], rfl, by omega, by simpa using ⟨h.2.2.1, h.2.2.2.1⟩⟩
  · rw [scalar?_four] at h
    exact ⟨a, [b, c, d], rfl, by omega, by simpa using ⟨h.2.2.1, h.2.2.2.1, h.2.2.2.2.1⟩⟩

/-- The first byte of a sequence tells its length, so no proper beginning of it is a sequence. -/
theorem scalar?_take_of_lt {k : Nat} (h : scalar? s = some code) (hk : k < s.length) :
    scalar? (s.take k) = none := by
  rw [Option.eq_none_iff_forall_ne_some]
  intro x hx
  rcases scalar?_shape h with ⟨a, rfl⟩ | ⟨a, b, rfl⟩ | ⟨a, b, c, rfl⟩ | ⟨a, b, c, d, rfl⟩ <;>
    rcases k with _ | _ | _ | _ | k <;>
    simp only [List.take_zero, List.take_succ_cons, List.length_cons, List.length_nil,
      scalar?_nil_ne, scalar?_one, scalar?_two, scalar?_three, scalar?_four] at h hk hx <;>
    omega

/-- Every byte but the first is a tail, so no proper end of a sequence is a sequence. -/
theorem scalar?_drop_of_lt {k : Nat} (h : scalar? s = some code) (hk : k + 1 < s.length) :
    scalar? (s.drop (k + 1)) = none := by
  rw [Option.eq_none_iff_forall_ne_some]
  intro x hx
  rcases scalar?_shape h with ⟨a, rfl⟩ | ⟨a, b, rfl⟩ | ⟨a, b, c, rfl⟩ | ⟨a, b, c, d, rfl⟩ <;>
    rcases k with _ | _ | _ | k <;>
    simp only [List.drop_zero, List.drop_succ_cons, List.length_cons, List.length_nil,
      scalar?_one, scalar?_two, scalar?_three, scalar?_four] at h hk hx <;>
    omega

theorem first_append (h : scalar? s = some code) (t : Bytes) :
    first (s ++ t) = ⟨code, s.length⟩ := by
  have shorter (k : Nat) (hk : k < s.length) := scalar?_take_of_lt h hk
  rcases scalar?_shape h with ⟨a, rfl⟩ | ⟨a, b, rfl⟩ | ⟨a, b, c, rfl⟩ | ⟨a, b, c, d, rfl⟩
  · simp [first, widths, h]
  · have h1 := shorter 1 (by simp)
    simp_all [first, widths]
  · have h1 := shorter 1 (by simp)
    have h2 := shorter 2 (by simp)
    simp_all [first, widths]
  · have h1 := shorter 1 (by simp)
    have h2 := shorter 2 (by simp)
    have h3 := shorter 3 (by simp)
    simp_all [first, widths]

theorem firstOfReverse_append (h : scalar? s = some code) (t : Bytes) :
    firstOfReverse (s.reverse ++ t) = ⟨code, s.length⟩ := by
  have shorter (k : Nat) (hk : k + 1 < s.length) := scalar?_drop_of_lt h hk
  rcases scalar?_shape h with ⟨a, rfl⟩ | ⟨a, b, rfl⟩ | ⟨a, b, c, rfl⟩ | ⟨a, b, c, d, rfl⟩
  · simp [firstOfReverse, widths, h]
  · have h1 := shorter 0 (by simp)
    simp_all [firstOfReverse, widths]
  · have h1 := shorter 1 (by simp)
    have h2 := shorter 0 (by simp)
    simp_all [firstOfReverse, widths]
  · have h1 := shorter 2 (by simp)
    have h2 := shorter 1 (by simp)
    have h3 := shorter 0 (by simp)
    simp_all [firstOfReverse, widths]

/-- A character is either a sequence at the start of the text or a single byte. -/
theorem first_cases (s : Bytes) :
    (∃ u t, s = u ++ t ∧ scalar? u = some (first s).code ∧ (first s).width = u.length) ∨
      first s = ⟨replacement, 1⟩ := by
  cases hf : widths.findSome? fun k => (scalar? (s.take k)).map (⟨·, k⟩ : Nat → Character) with
  | none => exact .inr (by simp [first, hf])
  | some r =>
    obtain ⟨k, -, hk⟩ := List.exists_of_findSome?_eq_some hf
    obtain ⟨x, hx, -⟩ := Option.map_eq_some_iff.mp hk
    have hs := (List.take_append_drop k s).symm
    have hfirst := first_append hx (s.drop k)
    rw [← hs] at hfirst
    exact .inl ⟨s.take k, s.drop k, hs, by rw [hfirst, hx], by rw [hfirst]⟩

/-- A character other than the replacement is read from its own sequence. -/
theorem exists_append_of_first (h : (first s).code ≠ replacement) :
    ∃ u t, s = u ++ t ∧ scalar? u = some (first s).code := by
  rcases first_cases s with ⟨u, t, hs, hu, -⟩ | hfirst
  · exact ⟨u, t, hs, hu⟩
  · exact absurd (congrArg code hfirst) h

theorem exists_append_of_firstOfReverse (h : (firstOfReverse s).code ≠ replacement) :
    ∃ u t, s = u.reverse ++ t ∧ scalar? u = some (firstOfReverse s).code := by
  cases hf : widths.findSome? fun k =>
      (scalar? (s.take k).reverse).map (⟨·, k⟩ : Nat → Character) with
  | none => simp [firstOfReverse, hf] at h
  | some r =>
    obtain ⟨k, -, hk⟩ := List.exists_of_findSome?_eq_some hf
    obtain ⟨x, hx, -⟩ := Option.map_eq_some_iff.mp hk
    have hs : s = (s.take k).reverse.reverse ++ s.drop k := by
      rw [List.reverse_reverse, List.take_append_drop]
    have hlast := firstOfReverse_append hx (s.drop k)
    rw [← hs] at hlast
    exact ⟨(s.take k).reverse, s.drop k, hs, by rw [hlast, hx]⟩

theorem encode_ne_nil (h : IsScalar code) : encode code ≠ [] := by
  intro he
  have hs := scalar?_encode h
  rw [he] at hs
  simp [scalar?] at hs

/-- A byte below 128 stands for itself and is no part of a longer sequence. -/
theorem eq_of_mem_encode (h : IsScalar code) (hb : b ∈ encode code) (hlt : b.toNat < 0x80) :
    code = b.toNat ∧ encode code = [b] := by
  have hs := scalar?_encode h
  rcases scalar?_shape hs with ⟨a, he⟩ | ⟨a, c, he⟩ | ⟨a, c, d, he⟩ | ⟨a, c, d, e, he⟩
  · rw [he, scalar?_one] at hs
    rw [he, List.mem_singleton] at hb
    exact ⟨hb ▸ hs.2, hb ▸ he⟩
  · rw [he, scalar?_two] at hs
    simp only [he, List.mem_cons, List.not_mem_nil, or_false] at hb
    rcases hb with rfl | rfl <;> omega
  · rw [he, scalar?_three] at hs
    simp only [he, List.mem_cons, List.not_mem_nil, or_false] at hb
    rcases hb with rfl | rfl | rfl <;> omega
  · rw [he, scalar?_four] at hs
    simp only [he, List.mem_cons, List.not_mem_nil, or_false] at hb
    rcases hb with rfl | rfl | rfl | rfl <;> omega

/-- A line feed behind a text completes no sequence in it. -/
theorem first_append_line (hs : s ≠ []) (r : Bytes) :
    (first (s ++ 0x0A :: r)).code = (first s).code := by
  by_cases h : ∃ u t x, s = u ++ t ∧ scalar? u = some x
  · obtain ⟨u, t, x, rfl, hu⟩ := h
    rw [List.append_assoc, first_append hu, first_append hu]
  · have hinvalid : (first s).code = replacement := Decidable.byContradiction fun hcode => by
      obtain ⟨u, t, hut, hu⟩ := exists_append_of_first hcode
      exact h ⟨u, t, _, hut, hu⟩
    rw [hinvalid]
    refine Decidable.byContradiction fun hcode => ?_
    obtain ⟨u, t, hut, hu⟩ := exists_append_of_first hcode
    rcases List.append_eq_append_iff.mp hut with ⟨v, rfl, hv⟩ | ⟨v, rfl, -⟩
    · cases v with
      | nil => exact h ⟨s, [], _, by simp, by simpa using hu⟩
      | cons b v =>
        -- The sequence would hold the line feed, which is a sequence on its own.
        obtain ⟨rfl, -⟩ := List.cons.inj hv
        have hmem : 0x0A ∈ encode (first (s ++ 0x0A :: r)).code := by
          rw [← eq_encode_of_scalar? hu]
          simp
        have hlone := (eq_of_mem_encode (isScalar_of_scalar? hu) hmem (by decide)).2
        rw [← eq_encode_of_scalar? hu] at hlone
        have hlength := congrArg List.length hlone
        simp only [List.length_append, List.length_cons, List.length_nil] at hlength
        exact hs (List.eq_nil_of_length_eq_zero (by omega))
    · exact h ⟨u, v, _, rfl, hu⟩

end SchemaDoc.Character
