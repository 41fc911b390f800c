import SchemaDoc.Proofs.Text.Encoding

/-! # Boundaries of characters

A text that is read from the left is cut in front of every character and at its
end, whether it is valid or not: a byte that begins no sequence is a character on
its own. There is a cut in front of every sequence, since its first byte is no part
of another one, so in particular in front of every byte below 128 and behind it.
-/

namespace SchemaDoc.Character

variable {b : UInt8} {m n : Nat} {s t u v : Bytes}

/-- The first `n` bytes of a text are characters of it, read from the left. -/
inductive Boundary : Bytes → Nat → Prop where
  | start (s : Bytes) : Boundary s 0
  | behind {s : Bytes} {n : Nat} : s ≠ [] → Boundary (s.drop (first s).width) n →
      Boundary s ((first s).width + n)

theorem ne_nil_of_scalar? {code : Nat} (h : scalar? u = some code) : u ≠ [] := by
  rintro rfl
  simp [scalar?] at h

theorem width_pos (s : Bytes) : 0 < (first s).width := by
  rcases first_cases s with ⟨u, t, -, hu, hw⟩ | hs
  · rw [hw]
    exact List.length_pos_iff.mpr (ne_nil_of_scalar? hu)
  · rw [hs]
    exact Nat.one_pos

theorem width_le_length (hs : s ≠ []) : (first s).width ≤ s.length := by
  rcases first_cases s with ⟨u, t, hut, -, hw⟩ | hfirst
  · rw [hw, hut, List.length_append]
    omega
  · rw [hfirst]
    exact List.length_pos_iff.mpr hs

/-- No character goes over the start of a sequence. -/
theorem width_le_of_sequence {code : Nat} (hv : scalar? v = some code) (hu : u ≠ []) (t : Bytes) :
    (first (u ++ (v ++ t))).width ≤ u.length := by
  rcases first_cases (u ++ (v ++ t)) with ⟨x, y, hxy, hx, hwidth⟩ | hfirst
  · rw [hwidth]
    rcases List.append_eq_append_iff.mp hxy with ⟨w, rfl, hw⟩ | ⟨w, rfl, -⟩
    · cases w with
      | nil => simp
      | cons b w =>
        -- The first byte of the sequence would be a tail of a longer one.
        obtain ⟨a, r, rfl, ha, -⟩ := exists_cons_of_scalar? hv
        obtain ⟨c, s, hcs, -, htails⟩ := exists_cons_of_scalar? hx
        obtain ⟨rfl, -⟩ := List.cons.inj hw
        obtain ⟨d, u, rfl⟩ := List.exists_cons_of_ne_nil hu
        obtain ⟨-, rfl⟩ := List.cons.inj hcs
        simp [htails a (by simp)] at ha
    · rw [List.length_append]
      omega
  · rw [hfirst]
    exact List.length_pos_iff.mpr hu

theorem list_eq_cons (hs : s ≠ []) : list s = first s :: list (s.drop (first s).width) := by
  obtain ⟨b, t, rfl⟩ := List.exists_cons_of_ne_nil hs
  obtain ⟨k, hk⟩ := Nat.exists_eq_add_one_of_ne_zero (Nat.ne_of_gt (width_pos (b :: t)))
  rw [list, listFrom, hk, listFrom_eq_drop]
  rfl

theorem first_take (h : (first s).width ≤ n) : first (s.take n) = first s := by
  rcases first_cases s with ⟨u, t, hut, hu, hwidth⟩ | hfirst
  · have htake : s.take n = u ++ t.take (n - u.length) := by
      rw [hwidth] at h
      rw [hut, List.take_append, List.take_of_length_le h]
    have hlong := first_append hu t
    rw [← hut] at hlong
    rw [htake, first_append hu, hlong]
  rcases first_cases (s.take n) with ⟨u, t, hut, hu, -⟩ | hshort
  · -- A sequence in the part is one in the text.
    have hlong := first_append hu (t ++ s.drop n)
    rw [← List.append_assoc, ← hut, List.take_append_drop] at hlong
    rw [hut, first_append hu, hlong]
  · rw [hshort, hfirst]

/-- Characters that stand one behind the other from an offset on, each with the offset behind it. -/
def ends : (offset : Nat) → List Character → List (Character × Nat)
  | _, [] => []
  | o, r :: rs => (r, o + r.width) :: ends (o + r.width) rs

theorem map_fst_ends (o : Nat) (rs : List Character) : (ends o rs).map Prod.fst = rs := by
  induction rs generalizing o with
  | nil => rfl
  | cons r rs ih => rw [ends, List.map_cons, ih]

namespace Boundary

theorem trans (h : Boundary s m) (h' : Boundary (s.drop m) n) : Boundary s (m + n) := by
  induction h with
  | start s => simpa using h'
  | @behind s m hs _ ih =>
    rw [← List.drop_drop] at h'
    rw [Nat.add_assoc]
    exact .behind hs (ih h')

theorem append (h : Boundary (u ++ t) u.length) (h' : Boundary t n) :
    Boundary (u ++ t) (u.length + n) :=
  h.trans (by rwa [List.drop_left])

/-- There is a boundary behind a sequence at the start of a text. -/
theorem sequence {code : Nat} (hu : scalar? u = some code) (t : Bytes) :
    Boundary (u ++ t) u.length := by
  have hfirst := first_append hu t
  have hne : u ++ t ≠ [] := by simp [ne_nil_of_scalar? hu]
  have h : Boundary (u ++ t) ((first (u ++ t)).width + 0) := .behind hne (.start _)
  rwa [hfirst] at h

theorem before_sequence {code : Nat} (hv : scalar? v = some code) (u t : Bytes) :
    Boundary (u ++ (v ++ t)) u.length := by
  induction hn : u.length using Nat.strongRecOn generalizing u with
  | ind n ih =>
    subst hn
    by_cases hu : u = []
    · rw [hu]
      exact .start _
    · have hpos := width_pos (u ++ (v ++ t))
      have hle := width_le_of_sequence hv hu t
      have hlength : (u.drop (first (u ++ (v ++ t))).width).length =
          u.length - (first (u ++ (v ++ t))).width := List.length_drop
      have hrest := ih _ (by omega) (u.drop (first (u ++ (v ++ t))).width) rfl
      rw [← List.drop_append_of_le_length hle] at hrest
      have h := Boundary.behind (by simp [hu]) hrest
      rwa [hlength, Nat.add_sub_cancel' hle] at h

theorem before_ascii (hb : b.toNat < 0x80) (u t : Bytes) : Boundary (u ++ b :: t) u.length :=
  before_sequence (scalar?_one.mpr ⟨hb, rfl⟩) u t

theorem behind_ascii (hb : b.toNat < 0x80) (u t : Bytes) :
    Boundary (u ++ b :: t) (u.length + 1) :=
  (before_ascii hb u t).append (sequence (u := [b]) (scalar?_one.mpr ⟨hb, rfl⟩) t)

theorem le_length (h : Boundary s n) : n ≤ s.length := by
  induction h with
  | start s => exact Nat.zero_le _
  | @behind s n hs _ ih =>
    have hle := width_le_length hs
    rw [List.length_drop] at ih
    omega

/-- In front of every boundary but the start there is a character. -/
theorem exists_last (h : Boundary s n) (hn : 0 < n) :
    ∃ m, Boundary s m ∧ s.drop m ≠ [] ∧ m + (first (s.drop m)).width = n := by
  induction h with
  | start s => exact absurd hn (Nat.lt_irrefl 0)
  | @behind s n hs _ ih =>
    rcases Nat.eq_zero_or_pos n with rfl | hpos
    · exact ⟨0, .start s, hs, Nat.zero_add _⟩
    · obtain ⟨m, hm, hne, hwidth⟩ := ih hpos
      rw [List.drop_drop] at hne hwidth
      exact ⟨(first s).width + m, .behind hs hm, hne, by rw [Nat.add_assoc, hwidth]⟩

theorem length (s : Bytes) : Boundary s s.length := by
  induction hn : s.length using Nat.strongRecOn generalizing s with
  | ind n ih =>
    subst hn
    by_cases hs : s = []
    · rw [hs]
      exact .start _
    · have hpos := width_pos s
      have hle := width_le_length hs
      have hlength : (s.drop (first s).width).length = s.length - (first s).width :=
        List.length_drop
      have h := Boundary.behind hs (ih _ (by omega) (s.drop (first s).width) rfl)
      rwa [hlength, Nat.add_sub_cancel' hle] at h

/-- The characters of a text are those in front of a boundary and those behind it. -/
theorem ends_eq (h : Boundary s n) (o : Nat) :
    ends o (list s) = ends o (list (s.take n)) ++ ends (o + n) (list (s.drop n)) := by
  induction h generalizing o with
  | start s => rfl
  | @behind s n hs _ ih =>
    have hpos := width_pos s
    have hfirst := first_take (Nat.le_add_right (first s).width n)
    have hne : s.take ((first s).width + n) ≠ [] := by
      rw [Ne, List.take_eq_nil_iff, not_or]
      exact ⟨by omega, hs⟩
    have hrest : (s.take ((first s).width + n)).drop (first s).width =
        (s.drop (first s).width).take n := by
      rw [List.drop_take, Nat.add_sub_cancel_left]
    rw [list_eq_cons hs, ends, ih, list_eq_cons hne, hfirst, ends, hrest, List.drop_drop,
      List.cons_append, Nat.add_assoc]

theorem list_eq (h : Boundary s n) : list s = list (s.take n) ++ list (s.drop n) := by
  have hends := congrArg (List.map Prod.fst) (h.ends_eq 0)
  rwa [List.map_append, map_fst_ends, map_fst_ends, map_fst_ends] at hends

/-- From one boundary to another there are whole characters. -/
theorem drop (hm : Boundary s m) (hn : Boundary s n) (hle : m ≤ n) :
    Boundary (s.drop m) (n - m) := by
  induction hm generalizing n with
  | start s => exact hn
  | @behind s m hs _ ih =>
    have hpos := width_pos s
    cases hn with
    | start => exact absurd hle (by omega)
    | @behind _ k _ hn =>
      have h := ih hn (by omega)
      rwa [List.drop_drop, ← Nat.add_sub_add_left (first s).width] at h

end Boundary

end SchemaDoc.Character
