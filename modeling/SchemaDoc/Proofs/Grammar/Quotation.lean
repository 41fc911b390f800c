import SchemaDoc.Grammar.Lexeme

/-! # String literals

The literal of a text is the text with its backslashes and double quotes escaped,
between double quotes. The string literals at the start of a text are exactly
the literals of the texts without a line feed, whatever stands behind them.
-/

namespace SchemaDoc.Grammar

variable {n : Nat} {s : Bytes}

/-- A text with a backslash in front of every backslash and every double quote. -/
def escape : Bytes → Bytes
  | [] => []
  | b :: s => if b = 0x5C ∨ b = 0x22 then 0x5C :: b :: escape s else b :: escape s

/-- The literal of a text: escaped, between double quotes. -/
def quote (s : Bytes) : Bytes := 0x22 :: (escape s ++ [0x22])

theorem unescape_escape (s : Bytes) : unescape (escape s) = s := by
  induction s with
  | nil => rfl
  | cons b s ih =>
    rw [escape]
    split
    · simp [unescape, ih]
    · next h =>
      have hb : b ≠ 0x5C := fun hb => h (.inl hb)
      cases hs : escape s <;> simp_all [unescape]

namespace Lexeme

theorem stringTail?_escape (hs : ∀ b ∈ s, b ≠ 0x0A) (r : Bytes) :
    stringTail? (escape s ++ 0x22 :: r) = some ((escape s).length + 1) := by
  induction s with
  | nil => rfl
  | cons b s ih =>
    have ih' := ih (fun x hx => hs x (by simp [hx]))
    have hb := hs b (by simp)
    rw [escape]
    split
    · next h =>
      rcases h with rfl | rfl <;> simp [stringTail?, ih']
    · next h =>
      rw [List.cons_append, stringTail?, ih']
      · simp
      all_goals simp_all

theorem exists_of_stringTail? (h : stringTail? s = some n) :
    ∃ t r, s = escape t ++ 0x22 :: r ∧ (∀ b ∈ t, b ≠ 0x0A) ∧ (escape t).length + 1 = n := by
  fun_induction stringTail? s generalizing n with
  | case1 => simp at h
  | case2 r => exact ⟨[], r, rfl, by simp, by simpa [escape] using h⟩
  | case3 => simp at h
  | case4 s ih =>
    obtain ⟨m, hm, rfl⟩ := Option.map_eq_some_iff.mp h
    obtain ⟨t, r, rfl, ht, rfl⟩ := ih hm
    exact ⟨0x5C :: t, r, by simp [escape], by simpa using ht, by simp [escape]⟩
  | case5 s ih =>
    obtain ⟨m, hm, rfl⟩ := Option.map_eq_some_iff.mp h
    obtain ⟨t, r, rfl, ht, rfl⟩ := ih hm
    exact ⟨0x22 :: t, r, by simp [escape], by simpa using ht, by simp [escape]⟩
  | case6 => simp at h
  | case7 b s hquote hline _ _ hslash ih =>
    obtain ⟨m, hm, rfl⟩ := Option.map_eq_some_iff.mp h
    obtain ⟨t, r, rfl, ht, rfl⟩ := ih hm
    have hb : ¬ (b = 0x5C ∨ b = 0x22) := fun hb => hb.elim hslash hquote
    exact ⟨b :: t, r, by simp [escape, hb], by simpa using ⟨hline, ht⟩, by simp [escape, hb]⟩

private theorem string?_cons (b : UInt8) (s : Bytes) :
    string? (b :: s) = if b = 0x22 then (stringTail? s).map (· + 1) else none := by
  split
  · next h => rw [h, string?]
  · next h => simp [string?, h]

theorem string?_append (hs : ∀ b ∈ s, b ≠ 0x0A) (r : Bytes) :
    string? (quote s ++ r) = some (quote s).length := by
  have ht : stringTail? (escape s ++ [0x22] ++ r) = some ((escape s).length + 1) := by
    simpa using stringTail?_escape hs r
  rw [quote, List.cons_append, string?_cons, if_pos rfl, ht]
  simp

theorem exists_of_string? (h : string? s = some n) :
    ∃ t r, s = quote t ++ r ∧ (∀ b ∈ t, b ≠ 0x0A) ∧ (quote t).length = n := by
  cases s with
  | nil => simp [string?] at h
  | cons b s =>
    rw [string?_cons] at h
    split at h
    · next hb =>
      obtain ⟨m, hm, rfl⟩ := Option.map_eq_some_iff.mp h
      obtain ⟨t, r, rfl, ht, rfl⟩ := exists_of_stringTail? hm
      exact ⟨t, r, by simp [quote, hb], ht, by simp [quote]⟩
    · simp at h

private theorem stringTail?_append_line (s r : Bytes) :
    stringTail? (s ++ 0x0A :: r) = stringTail? s := by
  fun_induction stringTail? s with
  | case1 => rfl
  | case2 s => rfl
  | case3 s => rfl
  | case4 s ih => simp [stringTail?, ih]
  | case5 s ih => simp [stringTail?, ih]
  | case6 s hslash hquote =>
    -- A line feed behind the backslash escapes nothing, as the end of the text escapes nothing.
    cases s with
    | nil => rfl
    | cons b s => simp_all [stringTail?]
  | case7 b s hquote hline _ _ hslash ih =>
    rw [List.cons_append, stringTail?, ih]
    all_goals simp_all

theorem string?_append_line (s r : Bytes) : string? (s ++ 0x0A :: r) = string? s := by
  cases s with
  | nil => rfl
  | cons b s => rw [List.cons_append, string?_cons, string?_cons, stringTail?_append_line]

end Lexeme

end SchemaDoc.Grammar
