import Mathlib.Data.List.TakeWhile
import SchemaDoc.Proofs.Composition.Document
import SchemaDoc.Proofs.Failures.Source
import SchemaDoc.Proofs.Progress.Advance
import SchemaDoc.Proofs.Text.Utf8

/-! # Positions along a text

The position of an offset is counted from the text in front of it, and it is also
what a reader arrives at who goes through the characters one by one: a line feed
starts a new line and every other character takes one column. So positions grow
from character to character, and an offset in front of a character is told by its
line and its column.
-/

namespace SchemaDoc

open Character (Boundary)

variable {m n : Nat} {u v body : Bytes}

namespace Position

/-- The position behind a character that stands at a position. -/
def after (p : Position) (r : Character) : Position :=
  if r.code = 0x0A then ⟨p.line + 1, 1⟩ else ⟨p.line, p.column + 1⟩

def Before (p q : Position) : Prop := p.line < q.line ∨ p.line = q.line ∧ p.column < q.column

theorem Before.trans {p q r : Position} (h : p.Before q) (h' : q.Before r) : p.Before r := by
  unfold Before at *
  omega

theorem Before.ne {p q : Position} (h : p.Before q) : p ≠ q := by
  rintro rfl
  unfold Before at h
  omega

theorem before_after (p : Position) (r : Character) : p.Before (p.after r) := by
  rw [after]
  split
  · exact .inl (Nat.lt_succ_self _)
  · exact .inr ⟨rfl, Nat.lt_succ_self _⟩

theorem foldl_after_of_plain {rs : List Character} (h : ∀ r ∈ rs, r.code ≠ 0x0A) (p : Position) :
    rs.foldl after p = ⟨p.line, p.column + rs.length⟩ := by
  induction rs generalizing p with
  | nil => rfl
  | cons r rs ih =>
    obtain ⟨hr, hrs⟩ := List.forall_mem_cons.mp h
    rw [List.foldl_cons, after, if_neg hr, ih hrs, List.length_cons]
    simp only [Position.mk.injEq, true_and]
    omega

/-- Further up or down a text the same characters take the same columns. -/
theorem foldl_after_line (rs : List Character) (p : Position) (k : Nat) :
    rs.foldl after ⟨p.line + k, p.column⟩ =
      ⟨(rs.foldl after p).line + k, (rs.foldl after p).column⟩ := by
  induction rs generalizing p with
  | nil => rfl
  | cons r rs ih =>
    rw [List.foldl_cons, List.foldl_cons, ← ih]
    congr 1
    by_cases hr : r.code = 0x0A
    · simp [after, hr, Nat.add_right_comm]
    · simp [after, hr]

end Position

open Position (after Before)

namespace Source

variable {s : Source}

theorem notMem_codes (h : 0x0A ∉ v) : ∀ r ∈ Character.list v, r.code ≠ 0x0A := by
  induction hn : v.length using Nat.strongRecOn generalizing v with
  | ind n ih =>
    by_cases hv : v = []
    · rw [hv]
      nofun
    have hpos := Character.width_pos v
    have hlength := Character.width_le_length hv
    rw [Character.list_eq_cons hv, List.forall_mem_cons]
    refine ⟨fun hcode => h ?_, ih _ (by rw [List.length_drop]; omega)
      (fun hmem => h (List.mem_of_mem_drop hmem)) rfl⟩
    obtain ⟨u, t, hut, hu⟩ := Character.exists_append_of_first (s := v) (by
      rw [hcode]
      decide)
    rw [hut, Character.eq_encode_of_scalar? hu, hcode]
    exact List.mem_append_left _ (by decide)

theorem positionAfter_of_notMem (h : 0x0A ∉ v) :
    positionAfter v = ⟨1, (Character.list v).length + 1⟩ := by
  have hline : lastLine v = v := by
    rw [lastLine, List.takeWhile_eq_self_iff.mpr, List.reverse_reverse]
    intro b hb
    simpa using ne_of_mem_of_not_mem (List.mem_reverse.mp hb) h
  rw [positionAfter, hline, List.count_eq_zero.mpr h]

theorem positionAfter_eq_foldl (v : Bytes) :
    positionAfter v = (Character.list v).foldl after ⟨1, 1⟩ := by
  induction hn : v.length using Nat.strongRecOn generalizing v with
  | ind n ih =>
    by_cases hv : 0x0A ∈ v
    · -- The induction is on what stands behind the first line feed.
      obtain ⟨u, w, rfl, hu⟩ := List.eq_append_cons_of_mem hv
      have hbefore := (Character.Boundary.before_ascii (b := 0x0A) (by decide) u w).list_eq
      rw [List.take_left, List.drop_left] at hbefore
      have hscalar : Character.IsScalar 0x0A := .inl (by decide)
      have hfeed : Character.list (0x0A :: w) = ⟨0x0A, 1⟩ :: Character.list w :=
        Bytes.list_encode_append hscalar w
      rw [List.length_append, List.length_cons] at hn
      have hw := ih w.length (by omega) w rfl
      have hline := Position.foldl_after_line (Character.list w) ⟨1, 1⟩ 1
      rw [hbefore, List.foldl_append, Position.foldl_after_of_plain (notMem_codes hu), hfeed,
        List.foldl_cons, after, if_pos rfl, hline, ← hw, positionAfter_append_line,
        List.count_eq_zero.mpr hu]
    · rw [positionAfter_of_notMem hv, Position.foldl_after_of_plain (notMem_codes hv),
        Nat.add_comm]

theorem position_eq_foldl (s : Source) (o : Nat) :
    s.position o = (Character.list (s.body.take o)).foldl after ⟨1, 1⟩ := by
  rw [position, Int.toNat_natCast, positionAfter_eq_foldl]

/-- From the position of a character to that of the next one. -/
theorem position_step (h : Boundary s.body n) (hlt : n < s.body.length) :
    s.position (n + (Character.first (s.body.drop n)).width : Nat) =
      (s.position n).after (Character.first (s.body.drop n)) := by
  have hne : s.body.drop n ≠ [] := by
    rw [Ne, List.drop_eq_nil_iff]
    omega
  have hnext := h.trans (.behind hne (.start _))
  have hlist := hnext.list_eq
  rw [h.list_eq, Character.list_eq_cons hne, List.drop_drop, Nat.add_zero, List.append_cons,
    List.append_left_inj] at hlist
  rw [position_eq_foldl, position_eq_foldl, ← hlist, List.foldl_append, List.foldl_cons,
    List.foldl_nil]

theorem position_before_add (h : Boundary s.body m) (hn : Boundary (s.body.drop m) n)
    (hpos : 0 < n) : (s.position m).Before (s.position (m + n : Nat)) := by
  generalize ht : s.body.drop m = t at hn
  induction hn generalizing m with
  | start => omega
  | @behind t n hne hn ih =>
    subst ht
    have hlt : m < s.body.length := by
      rw [Ne, List.drop_eq_nil_iff] at hne
      omega
    have hstep := (s.position m).before_after (Character.first (s.body.drop m))
    rw [← position_step h hlt] at hstep
    rcases Nat.eq_zero_or_pos n with rfl | hn'
    · exact hstep
    · have hnext := ih (h.trans (.behind hne (.start _))) hn' (List.drop_drop ..).symm
      rw [Nat.add_zero, Nat.add_assoc] at hnext
      exact hstep.trans hnext

theorem position_before (hm : Boundary s.body m) (hn : Boundary s.body n) (hlt : m < n) :
    (s.position m).Before (s.position n) := by
  have h := position_before_add hm (hm.drop hn (Nat.le_of_lt hlt)) (by omega)
  rwa [Nat.add_sub_cancel' (Nat.le_of_lt hlt)] at h

end Source

namespace Grammar

theorem Reading.decodes {c d : Cursor} {qs : List Placed} (h : Reading c qs d) :
    c.Decodes d.skipTrivia := by
  induction h with
  | nil h =>
    rw [← h]
    exact Cursor.decodes_skipTrivia _
  | cons ht _ ih => exact ht.advances.1.trans ih

end Grammar

/-- A fault stands in front of a character or at the end. -/
theorem Source.exists_boundary_of_error {s : Source} {f : Fault} (h : s.parse = .error f) :
    ∃ o : Nat, Boundary s.body o ∧
      f.place = ⟨s.name, o, (s.position o).line, (s.position o).column⟩ := by
  obtain ⟨e, he, rfl⟩ := Source.parse_eq_error_iff.mp h
  obtain ⟨hle, htrivia, ⟨qs, hread, -⟩, -⟩ := Document.exists_of_error he []
  obtain ⟨w, -, ho, hboundary⟩ := hread.decodes
  rw [Grammar.Cursor.skipTrivia_of_not_startsTrivial htrivia] at ho
  have hoffset : e.offset = w.length := ho.trans (Nat.zero_add _)
  exact ⟨e.offset, hoffset ▸ hboundary, rfl⟩

/-- Positions start at line one and column one, and each character moves on by a column or to the
start of the next line. Offsets outside of the text have the positions of its ends. So positions
are strictly increasing from boundary to boundary, and so are those of faults. -/
theorem Source.position_along (s : Source) :
    s.position 0 = ⟨1, 1⟩ ∧
    (∀ o : Nat, Boundary s.body o → o < s.body.length →
      s.position (o + (Character.first (s.body.drop o)).width : Nat) =
        (s.position o).after (Character.first (s.body.drop o))) ∧
    (∀ o : Int, o < 0 → s.position o = s.position 0) ∧
    (∀ o : Int, s.body.length < o → s.position o = s.position s.body.length) ∧
    (∀ o o' : Nat, Boundary s.body o → Boundary s.body o' → o < o' →
      (s.position o).Before (s.position o')) ∧
    (∀ o o' : Nat, Boundary s.body o → Boundary s.body o' → s.position o = s.position o' → o = o') ∧
    ∀ f, s.parse = .error f → ∃ o : Nat, Boundary s.body o ∧
      f.place = ⟨s.name, o, (s.position o).line, (s.position o).column⟩ := by
  refine ⟨rfl, fun o => position_step, fun o ho => ?_, fun o ho => ?_,
    fun o o' => position_before, fun o o' hm hn heq => ?_, fun f => exists_boundary_of_error⟩
  · rw [position, Int.toNat_of_nonpos (Int.le_of_lt ho), position, Int.toNat_zero]
  · rw [position, position, Int.toNat_natCast, List.take_length,
      List.take_of_length_le (by omega)]
  · rcases Nat.lt_trichotomy o o' with hlt | rfl | hlt
    · exact absurd heq (position_before hm hn hlt).ne
    · rfl
    · exact absurd heq.symm (position_before hn hm hlt).ne

/-- An invalid byte, a sequence of two bytes and a line feed. -/
example : let s : Source := ⟨[], [0xFF, 0xC3, 0xA9, 0x0A, 0x41]⟩
    [0, 1, 3, 4, 5].map (fun o => s.position o) = [⟨1, 1⟩, ⟨1, 2⟩, ⟨1, 3⟩, ⟨2, 1⟩, ⟨2, 2⟩] := by
  decide

end SchemaDoc
