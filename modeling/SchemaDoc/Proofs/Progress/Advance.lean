import SchemaDoc.Proofs.Soundness.Definitions
import SchemaDoc.Proofs.Layout.Placement
import SchemaDoc.Proofs.Text.Boundary

/-! # Moving on by whole characters

Trivia and tokens are runs of whole characters: a token ends with a byte below
128, but for a comment, which is ended by one or by the end of the text. So
whatever is written in a text lies between two boundaries of characters.
-/

namespace SchemaDoc.Grammar

open Character (Boundary)

variable {α : Type} {k : Constancy} {g r : Bytes} {t : Token} {c d e m : Cursor}
  {ps : List (Part Span)}

theorem boundary_of_gap (hg : Gap g) (s : Bytes) : Boundary (g ++ s) g.length := by
  obtain ⟨codes, hcodes, rfl⟩ := hg
  induction codes with
  | nil => exact .start s
  | cons code codes ih =>
    obtain ⟨hcode, hcodes⟩ := List.forall_mem_cons.mp hcodes
    rw [List.flatMap_cons, List.append_assoc, List.length_append]
    exact (Boundary.sequence (scalar?_encode_of_isTrivia hcode) _).append (ih hcodes)

theorem Token.Whole.boundary (h : t.Whole r) : Boundary (t.text ++ r) t.text.length := by
  have last {s u : Bytes} {b : UInt8} (hs : s = u ++ [b]) (hb : IsPlain b) :
      Boundary (s ++ r) s.length := by
    rw [hs, List.append_assoc, List.length_append]
    exact .behind_ascii hb.1 u r
  cases t with
  | mark text =>
    obtain ⟨b, rfl, hb⟩ := exists_of_mem_marks h
    exact last (u := []) rfl hb
  | word text =>
    obtain ⟨u, b, hs, hb⟩ := exists_last_of_isIdentifier h.1
    exact last hs (isPlain_of_isNameContinue hb)
  | number literal =>
    obtain ⟨u, b, hs, hb⟩ := exists_last_of_isNumber (isNumber_of_number? h)
    exact last hs (isPlain_of_isDigit hb)
  | string text => exact last (u := 0x22 :: escape text) rfl (by decide)
  | comment text =>
    cases r with
    | nil =>
      have h := Boundary.length (text ++ [])
      rwa [List.append_nil] at h ⊢
    | cons b r =>
      have hline : isLineEnd b = true := by simpa using h.2
      have hb : b.toNat < 0x80 := by
        rcases Bool.or_eq_true_iff.mp hline with hb | hb <;> rw [eq_of_beq hb] <;> decide
      exact .before_ascii hb text r

namespace Cursor

/-- The cursor `d` is reached from `c` by moving over whole characters. -/
def Decodes (c d : Cursor) : Prop :=
  ∃ w, c.rest = w ++ d.rest ∧ d.offset = c.offset + w.length ∧ Boundary c.rest w.length

theorem Decodes.refl (c : Cursor) : c.Decodes c := ⟨[], rfl, rfl, .start _⟩

theorem Decodes.trans (h : c.Decodes d) (h' : d.Decodes e) : c.Decodes e := by
  obtain ⟨v, hv, hd, hbv⟩ := h
  obtain ⟨w, hw, he, hbw⟩ := h'
  refine ⟨v ++ w, by rw [hv, hw, List.append_assoc], by rw [he, hd, List.length_append]; omega, ?_⟩
  rw [hv] at hbv ⊢
  rw [List.length_append]
  exact hbv.append hbw

theorem Decodes.length_le (h : c.Decodes d) : d.rest.length ≤ c.rest.length := by
  obtain ⟨w, hw, -, -⟩ := h
  rw [hw, List.length_append]
  omega

theorem decodes_skipTrivia (c : Cursor) : c.Decodes c.skipTrivia := by
  obtain ⟨g, hg, hs, ho⟩ := c.exists_gap_skipTrivia
  refine ⟨g, hs, ho, ?_⟩
  rw [hs]
  exact boundary_of_gap hg _

/-- The cursor moves on over whole characters, at least one of them. -/
def Advances (c d : Cursor) : Prop := c.Decodes d ∧ d.rest.length < c.rest.length

theorem Advances.trans (h : c.Advances d) (h' : d.Decodes e) : c.Advances e :=
  ⟨h.1.trans h', Nat.lt_of_le_of_lt h'.length_le h.2⟩

theorem Decodes.trans_advances (h : c.Decodes d) (h' : d.Advances e) : c.Advances e :=
  ⟨h.trans h'.1, Nat.lt_of_lt_of_le h'.2 h.length_le⟩

theorem Advances.exists_atOffset {body : Bytes} {off : Nat} (h : (atOffset body off).Advances d) :
    ∃ off', d = atOffset body off' ∧ off < off' ∧ off' ≤ body.length ∧
      Boundary (body.drop off) (off' - off) := by
  obtain ⟨⟨w, hw, ho, hboundary⟩, hlt⟩ := h
  simp only [atOffset] at hw ho hboundary hlt
  have hlength := congrArg List.length hw
  rw [List.length_drop, List.length_append] at hlength
  rw [hw, List.length_append] at hlt
  refine ⟨off + w.length, ?_, by omega, by omega, by rwa [Nat.add_sub_cancel_left]⟩
  rw [atOffset, ← List.drop_drop, hw, List.drop_left, ← ho]

end Cursor

open Cursor (Decodes Advances)

theorem Token.Reads.advances (h : t.Reads c d) : c.Advances d := by
  refine ⟨c.decodes_skipTrivia.trans ⟨t.text, h.1.1, h.1.2, ?_⟩, h.length_lt⟩
  rw [h.1.1]
  exact h.2.boundary

theorem Written.decodes {L : Type} {g : Span → L} {ps : List (Part L)} (h : Written k g ps c d) :
    c.skipTrivia.Decodes d.skipTrivia := by
  have token {t : Token} {c m : Cursor} (ht : t.Reads c m) :
      c.skipTrivia.Decodes m.skipTrivia :=
    (ht.congr (e := c.skipTrivia) (by simp)).advances.1.trans m.decodes_skipTrivia
  induction h with
  | nil h =>
    rw [h]
    exact .refl _
  | token ht _ ih => exact (token ht).trans ih
  | omitted _ ih => exact ih
  | kept ht _ ih => exact (token ht).trans ih
  | node _ _ _ _ ihn ih => exact ihn.trans ih

namespace Covers

theorem decodes (h : Covers k ps c d) (hd : d.skipTrivia = d) : c.Decodes d := by
  rw [← hd]
  exact c.decodes_skipTrivia.trans h.2.decodes

/-- A node that is matched takes a part of the text. -/
theorem advances {n : Node Span} (h : Covers k [.node n] c d) (hn : ¬ n.IsDocument)
    (hd : d.skipTrivia = d) : c.Advances d := by
  have hlt := h.2.length_lt hn
  rw [hd] at hlt
  exact ⟨h.decodes hd, Nat.lt_of_lt_of_le hlt c.reaches_skipTrivia.length_le⟩

end Covers

theorem skipTrivia_of_positioned {rule : Rule (Span → α)} {a : α}
    (h : positioned rule c = .matched a d) : d.skipTrivia = d := by
  obtain ⟨f, m, -, rfl, -⟩ := positioned_eq_matched h
  exact m.skipTrivia_skipTrivia

theorem skipTrivia_of_definition {a : Definition Span} (h : definition c = .matched a d) :
    d.skipTrivia = d := by
  simp only [definition, Outcome.orElse_eq_matched, Outcome.map_eq_matched] at h
  rcases h with ⟨o, h, -⟩ | ⟨-, h | ⟨-, h | ⟨-, h | ⟨-, h | ⟨-, h | ⟨-, h⟩⟩⟩⟩⟩⟩ <;>
    exact skipTrivia_of_positioned h

end SchemaDoc.Grammar
