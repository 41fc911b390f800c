import SchemaDoc.Proofs.Grammar.Word
import SchemaDoc.Proofs.Text.Encoding

/-! # Valid texts

A text is valid when it is a run of UTF-8 sequences. Such a text can be cut in
front of every byte that is not inside a sequence, and what is made of its
characters is made of the sequences one by one.
-/

namespace SchemaDoc.Bytes

open Character (encode first isTail IsScalar)
open Grammar (Stops)

variable {s t : Bytes} {code : Nat}

/-- A run of UTF-8 sequences. -/
inductive IsUtf8 : Bytes → Prop where
  | nil : IsUtf8 []
  | cons {code : Nat} {s : Bytes} : IsScalar code → IsUtf8 s → IsUtf8 (encode code ++ s)

theorem IsUtf8.append (hs : IsUtf8 s) (ht : IsUtf8 t) : IsUtf8 (s ++ t) := by
  induction hs with
  | nil => exact ht
  | cons hcode _ ih =>
    rw [List.append_assoc]
    exact .cons hcode ih

theorem encode_of_lt {b : UInt8} (h : b.toNat < 0x80) : encode b.toNat = [b] :=
  (Character.eq_encode_of_scalar? (Character.scalar?_one.mpr ⟨h, rfl⟩)).symm

/-- Bytes below 128 are sequences on their own. -/
theorem IsUtf8.cons_ascii {b : UInt8} (hb : b.toNat < 0x80) (hs : IsUtf8 s) : IsUtf8 (b :: s) := by
  have h : IsUtf8 (encode b.toNat ++ s) := .cons (.inl (by omega)) hs
  rwa [encode_of_lt hb] at h

theorem isUtf8_of_ascii (h : ∀ b ∈ s, b.toNat < 0x80) : IsUtf8 s := by
  induction s with
  | nil => exact .nil
  | cons b s ih =>
    obtain ⟨hb, hs⟩ := List.forall_mem_cons.mp h
    exact .cons_ascii hb (ih hs)

theorem first_encode_append (h : IsScalar code) (s : Bytes) :
    first (encode code ++ s) = ⟨code, (encode code).length⟩ :=
  Character.first_append (Character.scalar?_encode h) s

/-- The replacement character itself has a sequence of three bytes. -/
theorem isInvalid_encode (code : Nat) :
    Character.isInvalid ⟨code, (encode code).length⟩ = false := by
  rw [Character.isInvalid, Bool.and_eq_false_iff]
  by_cases h : code = Character.replacement
  · right
    rw [h]
    decide
  · left
    simpa using h

theorem list_encode_append (h : IsScalar code) (s : Bytes) :
    Character.list (encode code ++ s) = ⟨code, (encode code).length⟩ :: Character.list s := by
  have hfirst := first_encode_append h s
  cases he : encode code with
  | nil => exact absurd he (Character.encode_ne_nil h)
  | cons b r =>
    rw [he, List.cons_append] at hfirst
    rw [Character.list, List.cons_append, Character.listFrom, hfirst, List.length_cons,
      Nat.add_sub_cancel, Character.listFrom_eq_drop, List.drop_left]
    rfl

private theorem mapCharactersFrom_eq_drop (f : Character → Bytes → Bytes) (pending : Nat)
    (s : Bytes) : mapCharactersFrom f pending s = mapCharactersFrom f 0 (s.drop pending) := by
  induction pending generalizing s with
  | zero => rfl
  | succ pending ih => cases s <;> simp [mapCharactersFrom, ih]

theorem mapCharacters_encode_append (f : Character → Bytes → Bytes) (h : IsScalar code)
    (s : Bytes) : mapCharacters f (encode code ++ s) =
      f ⟨code, (encode code).length⟩ (encode code) ++ mapCharacters f s := by
  have hfirst := first_encode_append h s
  cases he : encode code with
  | nil => exact absurd he (Character.encode_ne_nil h)
  | cons b r =>
    rw [he, List.cons_append] at hfirst
    rw [mapCharacters, List.cons_append, mapCharactersFrom]
    simp only [hfirst]
    rw [List.length_cons, Nat.add_sub_cancel, mapCharactersFrom_eq_drop, List.drop_left,
      ← List.cons_append, ← List.length_cons, List.take_left]
    rfl

/-- A character that is not invalid is read from its own sequence. -/
private theorem exists_sequence_of_first (h : (first s).isInvalid = false) :
    ∃ code t, IsScalar code ∧ s = encode code ++ t := by
  by_cases hcode : (first s).code = Character.replacement
  · cases hf : Character.widths.findSome?
        fun k => (Character.scalar? (s.take k)).map (⟨·, k⟩ : Nat → Character) with
    | none =>
      rw [first, hf] at h
      cases h
    | some r =>
      obtain ⟨k, -, hk⟩ := List.exists_of_findSome?_eq_some hf
      obtain ⟨x, hx, -⟩ := Option.map_eq_some_iff.mp hk
      refine ⟨x, s.drop k, Character.isScalar_of_scalar? hx, ?_⟩
      rw [← Character.eq_encode_of_scalar? hx, List.take_append_drop]
  · obtain ⟨u, t, hut, hu⟩ := Character.exists_append_of_first hcode
    exact ⟨_, t, Character.isScalar_of_scalar? hu, by rwa [← Character.eq_encode_of_scalar? hu]⟩

/-- The texts without invalid characters are the runs of UTF-8 sequences. -/
theorem isValidUtf8_iff : s.isValidUtf8 = true ↔ IsUtf8 s := by
  rw [isValidUtf8]
  constructor
  · intro h
    induction hn : s.length using Nat.strongRecOn generalizing s with
    | ind n ih =>
      by_cases hs : s = []
      · rw [hs]
        exact .nil
      · have hfirst : (first s).isInvalid = false := by
          obtain ⟨b, r, rfl⟩ := List.exists_cons_of_ne_nil hs
          rw [Character.list, Character.listFrom, List.all_cons, Bool.and_eq_true] at h
          simpa using h.1
        obtain ⟨code, t, hcode, rfl⟩ := exists_sequence_of_first hfirst
        have hlength := List.length_pos_iff.mpr (Character.encode_ne_nil hcode)
        rw [list_encode_append hcode, List.all_cons, Bool.and_eq_true] at h
        rw [List.length_append] at hn
        exact .cons hcode (ih t.length (by omega) h.2 rfl)
  · intro h
    induction h with
    | nil => rfl
    | cons hcode _ ih =>
      rw [list_encode_append hcode, List.all_cons, isInvalid_encode, ih]
      rfl

/-- A valid text does not start inside of a sequence. -/
theorem IsUtf8.stops (h : IsUtf8 s) : Stops isTail s := by
  cases h with
  | nil => trivial
  | cons hcode _ =>
    obtain ⟨a, r, he, ha, -⟩ := Character.exists_cons_of_scalar? (Character.scalar?_encode hcode)
    rw [he]
    exact ha

/-- A valid text is cut into valid texts in front of a byte that is no tail. -/
theorem IsUtf8.of_append (h : IsUtf8 (s ++ t)) (ht : Stops isTail t) : IsUtf8 s ∧ IsUtf8 t := by
  generalize hst : s ++ t = u at h
  induction h generalizing s with
  | nil =>
    obtain ⟨rfl, rfl⟩ := List.append_eq_nil_iff.mp hst
    exact ⟨.nil, .nil⟩
  | @cons code u hcode hu ih =>
    rcases List.append_eq_append_iff.mp hst with ⟨v, hv, rfl⟩ | ⟨v, rfl, rfl⟩
    · cases s with
      | nil =>
        rw [List.nil_append] at hv
        rw [← hv]
        exact ⟨.nil, .cons hcode hu⟩
      | cons a r =>
        cases v with
        | nil =>
          rw [List.append_nil] at hv
          rw [← hv, ← List.append_nil (encode code)]
          exact ⟨.cons hcode .nil, hu⟩
        | cons b v =>
          -- The cut would be inside of the sequence, in front of one of its tails.
          obtain ⟨a', r', he, -, htails⟩ :=
            Character.exists_cons_of_scalar? (Character.scalar?_encode hcode)
          rw [he, List.cons_append] at hv
          have htail : isTail b = true := htails b (by simp [(List.cons.inj hv).2])
          rw [List.cons_append, Grammar.stops_cons, htail] at ht
          nomatch ht
    · obtain ⟨hv, ht⟩ := ih rfl
      exact ⟨.cons hcode hv, ht⟩

theorem IsUtf8.of_append_cons {b : UInt8} (h : IsUtf8 (s ++ b :: t)) (hb : b.toNat < 0x80) :
    IsUtf8 s ∧ IsUtf8 t := by
  have htail : isTail b = false := by
    rw [Bool.eq_false_iff, Ne, Character.isTail_iff]
    omega
  obtain ⟨hs, hbt⟩ := h.of_append (Grammar.stops_cons.mpr htail)
  refine ⟨hs, ?_⟩
  generalize hu : b :: t = u at hbt
  cases hbt with
  | nil => nomatch hu
  | @cons code u hcode hrest =>
    obtain ⟨a, r, hencode⟩ := List.exists_cons_of_ne_nil (Character.encode_ne_nil hcode)
    rw [hencode, List.cons_append] at hu
    obtain ⟨rfl, rfl⟩ := List.cons.inj hu
    have hlone := (Character.eq_of_mem_encode hcode (by simp [hencode]) hb).2
    rw [hencode] at hlone
    rw [(List.cons.inj hlone).2]
    exact hrest

end SchemaDoc.Bytes
