import SchemaDoc.Grammar.Lexeme

/-! # Names and comments

Both are runs of bytes of one kind behind a byte that starts them. The length
found at the start of a text is that of a word of the class; a word is found
whole when what stands behind it cannot go on with it.
-/

namespace SchemaDoc.Grammar

variable {p : UInt8 → Bool} {n : Nat} {r s t u v : Bytes}

/-- A text whose first byte, if there is one, has not the property `p`. -/
def Stops (p : UInt8 → Bool) : Bytes → Prop
  | [] => True
  | b :: _ => p b = false

@[simp] theorem stops_nil : Stops p [] := trivial

@[simp] theorem stops_cons {b : UInt8} : Stops p (b :: r) ↔ p b = false := Iff.rfl

theorem Stops.mono {q : UInt8 → Bool} (hr : Stops q r) (hq : ∀ b, p b = true → q b = true) :
    Stops p r := by
  cases r with
  | nil => trivial
  | cons b r =>
    cases hb : p b with
    | false => exact hb
    | true => exact absurd (hq b hb) (by rw [show q b = false from hr]; decide)

theorem takeWhile_append_of_stops (ht : ∀ b ∈ t, p b = true) (hr : Stops p r) :
    (t ++ r).takeWhile p = t := by
  rw [List.takeWhile_append_of_pos ht]
  cases r with
  | nil => simp
  | cons b r => rw [List.takeWhile_cons_of_neg (by simp [stops_cons.mp hr]), List.append_nil]

theorem dropWhile_append_of_stops (ht : ∀ b ∈ t, p b = true) (hr : Stops p r) :
    (t ++ r).dropWhile p = r := by
  rw [List.dropWhile_append_of_pos ht]
  cases r with
  | nil => rfl
  | cons b r => rw [List.dropWhile_cons_of_neg (by simp [stops_cons.mp hr])]

theorem runLength_append (ht : ∀ b ∈ t, p b = true) (hr : Stops p r) :
    runLength p (t ++ r) = t.length := by
  rw [runLength, takeWhile_append_of_stops ht hr]

theorem length_le_runLength (ht : ∀ b ∈ t, p b = true) (r : Bytes) :
    t.length ≤ runLength p (t ++ r) := by
  rw [runLength, List.takeWhile_append_of_pos ht, List.length_append]
  omega

theorem Stops.of_append (h : Stops p (r ++ s)) : Stops p r := by
  cases r with
  | nil => trivial
  | cons b r => exact h

/-- A run that ends in front of a text ends there also when the text is cut. -/
theorem runLength_of_append (h : runLength p (t ++ (r ++ s)) = t.length) :
    runLength p (t ++ r) = t.length := by
  induction t with
  | nil =>
    cases r with
    | nil => rfl
    | cons b r =>
      cases hb : p b with
      | false => simp [runLength, hb]
      | true => simp [runLength, hb] at h
  | cons b t ih =>
    cases hb : p b with
    | false => simp [runLength, hb] at h
    | true =>
      simp only [runLength, List.cons_append, List.takeWhile_cons, hb, if_true, List.length_cons,
        Nat.add_right_cancel_iff] at h ih ⊢
      exact ih h

theorem exists_run (p : UInt8 → Bool) (s : Bytes) :
    ∃ t r, s = t ++ r ∧ (∀ b ∈ t, p b = true) ∧ Stops p r := by
  induction s with
  | nil => exact ⟨[], [], rfl, by simp, trivial⟩
  | cons b s ih =>
    cases hb : p b with
    | false => exact ⟨[], b :: s, rfl, by simp, hb⟩
    | true =>
      obtain ⟨t, r, rfl, ht, hr⟩ := ih
      exact ⟨b :: t, r, rfl, by simpa [hb] using ht, hr⟩

theorem runLength_append_line (hp : p 0x0A = false) (s r : Bytes) :
    runLength p (s ++ 0x0A :: r) = runLength p s := by
  obtain ⟨t, u, rfl, ht, hu⟩ := exists_run p s
  rw [runLength_append ht hu, List.append_assoc]
  apply runLength_append ht
  cases u with
  | nil => exact hp
  | cons b u => exact hu

/-- A letter or underscore and then letters, digits and underscores. -/
def IsIdentifier : Bytes → Prop
  | [] => False
  | b :: s => isNameStart b = true ∧ ∀ x ∈ s, isNameContinue x = true

instance : (t : Bytes) → Decidable (IsIdentifier t)
  | [] => .isFalse id
  | b :: s => decidable_of_iff (isNameStart b = true ∧ s.all isNameContinue = true)
    (by rw [List.all_eq_true]; rfl)

def isLineEnd (b : UInt8) : Bool := b == 0x0D || b == 0x0A

/-- A number sign and no line end behind it. -/
def IsComment (t : Bytes) : Prop := ∃ s, t = 0x23 :: s ∧ ∀ b ∈ s, isLineEnd b = false

instance : (t : Bytes) → Decidable (IsComment t)
  | [] => .isFalse (by simp [IsComment])
  | b :: s => decidable_of_iff (b = 0x23 ∧ s.all (!isLineEnd ·) = true)
    (by simp [IsComment, and_assoc])

namespace Lexeme

theorem name?_append (ht : IsIdentifier t) (hr : Stops isNameContinue r) :
    name? (t ++ r) = some t.length := by
  cases t with
  | nil => exact ht.elim
  | cons b t =>
    rw [List.cons_append, name?, if_pos ht.1, runLength_append ht.2 hr, List.length_cons]

theorem exists_of_name? (h : name? s = some n) :
    ∃ t r, s = t ++ r ∧ IsIdentifier t ∧ Stops isNameContinue r ∧ t.length = n := by
  cases s with
  | nil => simp [name?] at h
  | cons b s =>
    obtain ⟨t, r, rfl, ht, hr⟩ := exists_run isNameContinue s
    rw [name?] at h
    split at h
    · next hb =>
      rw [runLength_append ht hr] at h
      exact ⟨b :: t, r, rfl, ⟨hb, ht⟩, hr, by simpa using h⟩
    · simp at h

theorem name?_append_line (s r : Bytes) : name? (s ++ 0x0A :: r) = name? s := by
  cases s with
  | nil => rfl
  | cons b s => rw [List.cons_append, name?, name?, runLength_append_line rfl]

private theorem comment?_cons (b : UInt8) (s : Bytes) :
    comment? (b :: s) =
      if b = 0x23 then some (runLength (fun x => !isLineEnd x) s + 1) else none := by
  have hp : (fun x : UInt8 => x != 0x0D && x != 0x0A) = fun x => !isLineEnd x := by
    funext x
    simp [isLineEnd, bne]
  split
  · next h => rw [h, comment?, hp]
  · next h => simp [comment?, h]

theorem comment?_append (ht : IsComment t) (hr : Stops (fun b => !isLineEnd b) r) :
    comment? (t ++ r) = some t.length := by
  obtain ⟨s, rfl, hs⟩ := ht
  rw [List.cons_append, comment?_cons, if_pos rfl, runLength_append _ hr, List.length_cons]
  simpa using hs

theorem exists_of_comment? (h : comment? s = some n) :
    ∃ t r, s = t ++ r ∧ IsComment t ∧ Stops (fun b => !isLineEnd b) r ∧ t.length = n := by
  cases s with
  | nil => simp [comment?] at h
  | cons b s =>
    obtain ⟨t, r, rfl, ht, hr⟩ := exists_run (fun b => !isLineEnd b) s
    rw [comment?_cons] at h
    split at h
    · next hb =>
      rw [runLength_append ht hr] at h
      exact ⟨b :: t, r, rfl, ⟨t, by rw [hb], by simpa using ht⟩, hr, by simpa using h⟩
    · simp at h

theorem comment?_append_line (s r : Bytes) : comment? (s ++ 0x0A :: r) = comment? s := by
  cases s with
  | nil => rfl
  | cons b s => rw [List.cons_append, comment?_cons, comment?_cons, runLength_append_line rfl]

end Lexeme

end SchemaDoc.Grammar
