import SchemaDoc.Grammar.Trivia
import SchemaDoc.Proofs.Text.Encoding

/-! # Gaps between tokens

A gap is a run of trivia characters, each as its UTF-8 sequence. Skipping trivia
from the left removes the longest gap at the start of a text, trimming removes
the longest gap at its end, and a text is cut in both ways at one place only.
-/

namespace SchemaDoc.Grammar

open Character (encode scalar? first firstOfReverse)

variable {a : UInt8} {code : Nat} {g s t u : Bytes}

/-- A possibly empty run of trivia characters. -/
def Gap (g : Bytes) : Prop :=
  ∃ codes : List Nat, (∀ code ∈ codes, isTrivia code = true) ∧ g = codes.flatMap encode

def StartsTrivial (s : Bytes) : Prop := ∃ code, isTrivia code = true ∧ encode code <+: s

def EndsTrivial (s : Bytes) : Prop := ∃ code, isTrivia code = true ∧ encode code <:+ s

theorem isScalar_of_isTrivia (h : isTrivia code = true) : Character.IsScalar code := by
  simp only [isTrivia, isNewline, isComma, isWhitespace, Bool.or_eq_true, Bool.and_eq_true,
    beq_iff_eq, decide_eq_true_eq] at h
  unfold Character.IsScalar
  omega

theorem ne_replacement_of_isTrivia (h : isTrivia code = true) :
    code ≠ Character.replacement := by
  rintro rfl
  exact absurd h (by decide)

theorem encode_ne_nil_of_isTrivia (h : isTrivia code = true) : encode code ≠ [] :=
  Character.encode_ne_nil (isScalar_of_isTrivia h)

theorem scalar?_encode_of_isTrivia (h : isTrivia code = true) :
    scalar? (encode code) = some code :=
  Character.scalar?_encode (isScalar_of_isTrivia h)

namespace Gap

theorem nil : Gap [] := ⟨[], by simp⟩

theorem ofCode (h : isTrivia code = true) : Gap (encode code) := ⟨[code], by simpa using h⟩

theorem append (hg : Gap g) (hs : Gap s) : Gap (g ++ s) := by
  obtain ⟨xs, hxs, rfl⟩ := hg
  obtain ⟨ys, hys, rfl⟩ := hs
  refine ⟨xs ++ ys, ?_, by simp⟩
  intro code hcode
  rcases List.mem_append.mp hcode with h | h
  · exact hxs code h
  · exact hys code h

theorem eq_nil_or_append (hg : Gap g) :
    g = [] ∨ ∃ code s, isTrivia code = true ∧ Gap s ∧ g = encode code ++ s := by
  obtain ⟨codes, hcodes, rfl⟩ := hg
  cases codes with
  | nil => exact .inl rfl
  | cons code codes =>
    refine .inr ⟨code, codes.flatMap encode, hcodes code (by simp), ⟨codes, ?_, rfl⟩, by simp⟩
    intro x hx
    exact hcodes x (by simp [hx])

/-- A gap starts with a trivia byte or with the first byte of a longer sequence. -/
theorem not_ascii_cons (hg : Gap (a :: s)) (ha : a.toNat < 0x80) : isTrivia a.toNat = true := by
  rcases hg.eq_nil_or_append with h | ⟨code, t, hcode, -, h⟩
  · simp at h
  · obtain ⟨b, r, hb⟩ := List.exists_cons_of_ne_nil (encode_ne_nil_of_isTrivia hcode)
    have hab : a = b := by
      rw [hb] at h
      exact (List.cons.inj h).1
    have hmem : a ∈ encode code := by simp [hb, hab]
    have hcode' := Character.eq_of_mem_encode (isScalar_of_isTrivia hcode) hmem ha
    rw [← hcode'.1]
    exact hcode

end Gap

theorem startsTrivial_of_isTrivia_first (h : isTrivia (first s).code = true) :
    StartsTrivial s := by
  obtain ⟨u, t, hs, hu⟩ :=
    Character.exists_append_of_first (ne_replacement_of_isTrivia h)
  exact ⟨_, h, t, by rw [← Character.eq_encode_of_scalar? hu, ← hs]⟩

theorem not_startsTrivial_nil : ¬ StartsTrivial [] := by
  rintro ⟨code, hcode, h⟩
  exact encode_ne_nil_of_isTrivia hcode (List.prefix_nil.mp h)

theorem not_startsTrivial_of_ascii (ha : a.toNat < 0x80) (hn : isTrivia a.toNat = false) :
    ¬ StartsTrivial (a :: s) := by
  rintro ⟨code, hcode, t, ht⟩
  have hgap : isTrivia a.toNat = true := by
    cases he : encode code with
    | nil => exact absurd he (encode_ne_nil_of_isTrivia hcode)
    | cons b r =>
      rw [he] at ht
      have hab : b = a := (List.cons.inj ht).1
      have := Gap.ofCode hcode
      rw [he, hab] at this
      exact this.not_ascii_cons ha
  simp [hn] at hgap

theorem startsTrivial_append_line (hs : s ≠ []) (r : Bytes) :
    StartsTrivial (s ++ 0x0A :: r) ↔ StartsTrivial s := by
  have hfirst {u : Bytes} : StartsTrivial u ↔ isTrivia (first u).code = true := by
    refine ⟨?_, startsTrivial_of_isTrivia_first⟩
    rintro ⟨code, hcode, t, rfl⟩
    rwa [Character.first_append (scalar?_encode_of_isTrivia hcode)]
  rw [hfirst, hfirst, Character.first_append_line hs]

private theorem triviaLengthFrom_eq_drop (n : Nat) (s : Bytes) :
    triviaLengthFrom n s = min n s.length + triviaLengthFrom 0 (s.drop n) := by
  induction n generalizing s with
  | zero => simp
  | succ n ih =>
    cases s with
    | nil => simp [triviaLengthFrom]
    | cons b s =>
      rw [triviaLengthFrom, ih, List.drop_succ_cons, List.length_cons]
      omega

theorem triviaLength_encode_append (h : isTrivia code = true) (s : Bytes) :
    triviaLength (encode code ++ s) = (encode code).length + triviaLength s := by
  have hfirst := Character.first_append (scalar?_encode_of_isTrivia h) s
  cases he : encode code with
  | nil => exact absurd he (encode_ne_nil_of_isTrivia h)
  | cons b r =>
    rw [he, List.cons_append] at hfirst
    rw [triviaLength, List.cons_append, triviaLengthFrom]
    simp only [hfirst, h, if_true]
    rw [triviaLengthFrom_eq_drop]
    simp [triviaLength]
    omega

theorem triviaLength_append (hg : Gap g) (s : Bytes) :
    triviaLength (g ++ s) = g.length + triviaLength s := by
  obtain ⟨codes, hcodes, rfl⟩ := hg
  induction codes with
  | nil => simp
  | cons code codes ih =>
    rw [List.flatMap_cons, List.append_assoc,
      triviaLength_encode_append (hcodes code (by simp)),
      ih (fun x hx => hcodes x (by simp [hx])), List.length_append, Nat.add_assoc]

theorem triviaLength_eq_zero (h : ¬ StartsTrivial s) : triviaLength s = 0 := by
  cases s with
  | nil => rfl
  | cons b s =>
    have hn : ¬ isTrivia (first (b :: s)).code = true := fun hf =>
      h (startsTrivial_of_isTrivia_first hf)
    simp [triviaLength, triviaLengthFrom, hn]

/-- Every text is a gap and a rest that does not start with trivia. -/
theorem exists_gap (s : Bytes) : ∃ g r, s = g ++ r ∧ Gap g ∧ ¬ StartsTrivial r := by
  induction hn : s.length using Nat.strongRecOn generalizing s with
  | ind n ih =>
    by_cases hs : StartsTrivial s
    · obtain ⟨code, hcode, t, rfl⟩ := hs
      have hlen : t.length < n := by
        have := List.length_pos_iff.mpr (encode_ne_nil_of_isTrivia hcode)
        rw [List.length_append] at hn
        omega
      obtain ⟨g, r, rfl, hg, hr⟩ := ih t.length hlen t rfl
      exact ⟨encode code ++ g, r, by simp, (Gap.ofCode hcode).append hg, hr⟩
    · exact ⟨[], s, rfl, .nil, hs⟩

theorem triviaLength_eq (hg : Gap g) (hs : ¬ StartsTrivial s) :
    triviaLength (g ++ s) = g.length := by
  rw [triviaLength_append hg, triviaLength_eq_zero hs, Nat.add_zero]

/-- Skipping trivia cuts a text into a gap and a rest that does not start with trivia. -/
theorem triviaLength_spec (s : Bytes) :
    Gap (s.take (triviaLength s)) ∧ ¬ StartsTrivial (s.drop (triviaLength s)) := by
  obtain ⟨g, r, rfl, hg, hr⟩ := exists_gap s
  rw [triviaLength_eq hg hr]
  simpa using ⟨hg, hr⟩

theorem gap_iff : Gap g ↔ triviaLength g = g.length := by
  constructor
  · intro h
    have := triviaLength_eq h not_startsTrivial_nil
    rwa [List.append_nil] at this
  · intro h
    have := (triviaLength_spec g).1
    rwa [h, List.take_length] at this

instance (g : Bytes) : Decidable (Gap g) := decidable_of_iff _ gap_iff.symm

private theorem dropTriviaOfReverse_eq_drop (n : Nat) (s : Bytes) :
    dropTriviaOfReverse n s = dropTriviaOfReverse 0 (s.drop n) := by
  induction n generalizing s with
  | zero => rfl
  | succ n ih =>
    cases s with
    | nil => simp [dropTriviaOfReverse]
    | cons b s => rw [dropTriviaOfReverse, ih, List.drop_succ_cons]

theorem trimRight_append_encode (h : isTrivia code = true) (s : Bytes) :
    trimRight (s ++ encode code) = trimRight s := by
  have hlast := Character.firstOfReverse_append (scalar?_encode_of_isTrivia h) s.reverse
  rw [trimRight, trimRight, List.reverse_append]
  cases he : (encode code).reverse with
  | nil => exact absurd (List.reverse_eq_nil_iff.mp he) (encode_ne_nil_of_isTrivia h)
  | cons b r =>
    have hlen : (encode code).length = r.length + 1 := by
      rw [← List.length_reverse, he, List.length_cons]
    rw [he, List.cons_append] at hlast
    rw [List.cons_append, dropTriviaOfReverse]
    simp only [hlast, h, if_true]
    rw [dropTriviaOfReverse_eq_drop, hlen, Nat.add_sub_cancel, List.drop_left]

theorem trimRight_append_gap (hg : Gap g) (s : Bytes) : trimRight (s ++ g) = trimRight s := by
  obtain ⟨codes, hcodes, rfl⟩ := hg
  induction codes generalizing s with
  | nil => simp
  | cons code codes ih =>
    rw [List.flatMap_cons, ← List.append_assoc, ih _ (fun x hx => hcodes x (by simp [hx])),
      trimRight_append_encode (hcodes code (by simp))]

theorem endsTrivial_of_isTrivia (h : isTrivia (firstOfReverse s.reverse).code = true) :
    EndsTrivial s := by
  obtain ⟨u, t, hs, hu⟩ :=
    Character.exists_append_of_firstOfReverse (ne_replacement_of_isTrivia h)
  refine ⟨_, h, t.reverse, ?_⟩
  rw [← Character.eq_encode_of_scalar? hu, ← List.reverse_reverse s, hs, List.reverse_append,
    List.reverse_reverse]

theorem trimRight_eq_self (h : ¬ EndsTrivial s) : trimRight s = s := by
  rw [trimRight]
  cases hs : s.reverse with
  | nil => simpa [dropTriviaOfReverse] using hs.symm
  | cons b r =>
    have hn : ¬ isTrivia (firstOfReverse (b :: r)).code = true := by
      rw [← hs]
      exact fun hf => h (endsTrivial_of_isTrivia hf)
    simp only [dropTriviaOfReverse, hn, Bool.false_eq_true, if_false]
    rw [← hs, List.reverse_reverse]

/-- Every text is a beginning that does not end with trivia and a gap. -/
theorem exists_trimmed (s : Bytes) : ∃ u g, s = u ++ g ∧ Gap g ∧ ¬ EndsTrivial u := by
  induction hn : s.length using Nat.strongRecOn generalizing s with
  | ind n ih =>
    by_cases hs : EndsTrivial s
    · obtain ⟨code, hcode, t, rfl⟩ := hs
      have hlen : t.length < n := by
        have := List.length_pos_iff.mpr (encode_ne_nil_of_isTrivia hcode)
        rw [List.length_append] at hn
        omega
      obtain ⟨u, g, rfl, hg, hu⟩ := ih t.length hlen t rfl
      exact ⟨u, g ++ encode code, by simp, hg.append (Gap.ofCode hcode), hu⟩
    · exact ⟨s, [], by simp, .nil, hs⟩

theorem trimRight_eq (hg : Gap g) (hu : ¬ EndsTrivial u) : trimRight (u ++ g) = u := by
  rw [trimRight_append_gap hg, trimRight_eq_self hu]

/-- Trimming cuts a text into a beginning that does not end with trivia and a gap. -/
theorem trimRight_spec (s : Bytes) :
    ¬ EndsTrivial (trimRight s) ∧ ∃ g, Gap g ∧ s = trimRight s ++ g := by
  obtain ⟨u, g, rfl, hg, hu⟩ := exists_trimmed s
  rw [trimRight_eq hg hu]
  exact ⟨hu, g, hg, rfl⟩

theorem trimRight_nil : trimRight [] = [] := rfl

theorem not_endsTrivial_of_ascii (ha : a.toNat < 0x80) (hn : isTrivia a.toNat = false) :
    ¬ EndsTrivial (s ++ [a]) := by
  rintro ⟨code, hcode, t, ht⟩
  have hmem : a ∈ encode code := by
    have hrev := congrArg List.reverse ht
    rw [List.reverse_append, List.reverse_append] at hrev
    cases he : (encode code).reverse with
    | nil => exact absurd (List.reverse_eq_nil_iff.mp he) (encode_ne_nil_of_isTrivia hcode)
    | cons b r =>
      rw [he] at hrev
      have hba : b = a := (List.cons.inj hrev).1
      rw [← List.mem_reverse, he, hba]
      simp
  have hcode' := Character.eq_of_mem_encode (isScalar_of_isTrivia hcode) hmem ha
  rw [hcode'.1, hn] at hcode
  exact Bool.false_ne_true hcode

/-- What stands in front of a byte that is no trivia does not matter for trimming. -/
theorem trimRight_append_cons (ha : a.toNat < 0x80) (hn : isTrivia a.toNat = false)
    (t s : Bytes) : trimRight (t ++ a :: s) = t ++ trimRight (a :: s) := by
  obtain ⟨u, g, hs, hg, hu⟩ := exists_trimmed (a :: s)
  rw [hs, trimRight_eq hg hu, ← List.append_assoc]
  apply trimRight_eq hg
  cases u with
  | nil =>
    rw [List.nil_append] at hs
    rw [← hs] at hg
    exact absurd (hg.not_ascii_cons ha) (by simp [hn])
  | cons b u =>
    obtain ⟨rfl, -⟩ := List.cons.inj hs
    rintro ⟨code, hcode, w, hw⟩
    -- A trivia sequence at the end lies behind the byte, since the byte is no part of one.
    apply hu
    rcases List.append_eq_append_iff.mp hw with ⟨v, hv, he⟩ | ⟨v, hv, he⟩
    · have hmem : a ∈ encode code := by simp [he]
      have hcode' := Character.eq_of_mem_encode (isScalar_of_isTrivia hcode) hmem ha
      rw [hcode'.1, hn] at hcode
      exact absurd hcode Bool.false_ne_true
    · exact ⟨code, hcode, v, he.symm⟩

end SchemaDoc.Grammar
