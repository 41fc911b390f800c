import SchemaDoc.Proofs.Yaml.Binary
import SchemaDoc.Proofs.Yaml.Number

/-! # Scalars are told apart

A text of a single line is written plain, between quotes of either kind or in base
64, and its first byte tells which. Null, truth values, numbers and empty lists are
written as words, and no text that is written plain is one of these words.
-/

namespace SchemaDoc.Yaml

open Bytes (IsUtf8)
open Character (IsScalar encode)

variable {b : UInt8} {column column' : Nat} {r r' s s' w : Bytes} {d d' : Data}

theorem mem_of_mem_codes (hs : IsUtf8 s) (hb : b.toNat < 0x80) (h : b.toNat ∈ codes s) : b ∈ s := by
  induction hs with
  | nil => nomatch h
  | @cons code s hcode _ ih =>
    rw [codes_encode_append hcode, List.mem_cons] at h
    rcases h with rfl | h
    · simp [Bytes.encode_of_lt hb]
    · exact List.mem_append_right _ (ih h)

/-- How a text of a single line is written. -/
inductive Form where
  | plain
  | single
  | double
  | binary
deriving DecidableEq, Repr

namespace Form

def line (column : Nat) (s : Bytes) : Form → Bytes
  | .plain => s ++ [0x0A]
  | .single => singleQuoted column s ++ [0x0A]
  | .double => doubleQuoted s ++ [0x0A]
  | .binary => Yaml.line (Yaml.binary column s)

/-- What a text must satisfy for a form. -/
def Suits (s : Bytes) : Form → Prop
  | .plain => readsOtherwise s = false ∧ ∀ b t, s = b :: t → isIndicator b.toNat = false
  | .single => IsUtf8 s ∧ isSingleQuotable (codes s) = true
  | .double => IsUtf8 s
  | .binary => True

def ofFirst (b : UInt8) : Form :=
  if b = 0x22 then .double else if b = 0x27 then .single else if b = 0x21 then .binary else .plain

theorem ofFirst_of_not_isIndicator (h : isIndicator b.toNat = false) : ofFirst b = .plain := by
  rw [ofFirst, if_neg, if_neg, if_neg] <;> rintro rfl <;> cases h

end Form

/-- A plain text does not start with a character that has a meaning there. -/
theorem not_isIndicator_of_isPlain (hs : IsUtf8 s) (h : isPlain s (codes s) = true) :
    ∀ b t, s = b :: t → isIndicator b.toNat = false := by
  intro b t hbt
  by_cases hb : b.toNat < 0x80
  · cases hs with
    | nil => nomatch hbt
    | @cons code s hcode _ =>
      rw [← eq_of_encode_append_eq_cons hcode hb hbt]
      rw [codes_encode_append hcode, isPlain, Bool.and_eq_true, Bool.not_eq_true'] at h
      have hindicator := h.2
      rw [hasIndicator, Bool.or_eq_false_iff, Bool.or_eq_false_iff, Bool.or_eq_false_iff,
        Bool.or_eq_false_iff] at hindicator
      exact (Bool.or_eq_false_iff.mp hindicator.1.1.1.2).1
  · rw [isIndicator, List.contains_eq_mem, decide_eq_false_iff_not]
    simp only [List.mem_cons, List.not_mem_nil, or_false]
    omega

theorem exists_form (h : 0x0A ∉ s) (column : Nat) :
    ∃ form : Form, form.Suits s ∧ line (Scalar.ofText column s) = form.line column s := by
  rw [Scalar.ofText]
  cases hvalid : s.isValidUtf8
  case false => exact ⟨.binary, trivial, rfl⟩
  case true =>
    have hs := Bytes.isValidUtf8_iff.mp hvalid
    have hline : ((Character.list s).map Character.code).contains 0x0A = false := by
      rw [List.contains_eq_mem, decide_eq_false_iff_not]
      exact fun hmem => h (mem_of_mem_codes hs (b := 0x0A) (by decide) hmem)
    simp only [Bool.not_true, Bool.false_eq_true, if_false, hline]
    split
    · exact ⟨.double, hs, rfl⟩
    · next hread =>
      split
      · next hplain =>
        exact ⟨.plain, ⟨by simpa using hread, not_isIndicator_of_isPlain hs hplain⟩, rfl⟩
      · split
        · next hquotable => exact ⟨.single, ⟨hs, hquotable⟩, rfl⟩
        · exact ⟨.double, hs, rfl⟩

theorem Form.exists_first {form : Form} (h : form.Suits s) (column : Nat) (r : Bytes) :
    ∃ b t, form.line column s ++ r = b :: t ∧ form = ofFirst b := by
  cases form with
  | plain =>
    obtain ⟨hread, hfirst⟩ := h
    cases s with
    | nil => nomatch hread
    | cons b t => exact ⟨b, _, rfl, (ofFirst_of_not_isIndicator (hfirst b t rfl)).symm⟩
  | single => exact ⟨0x27, _, rfl, rfl⟩
  | double => exact ⟨0x22, _, rfl, rfl⟩
  | binary =>
    rw [Form.line, line_binary]
    split <;> exact ⟨0x21, _, rfl, rfl⟩

/-- A line tells its text from what follows it. -/
theorem Form.line_append_inj {form form' : Form} (hs : 0x0A ∉ s) (hs' : 0x0A ∉ s')
    (hsuits : form.Suits s) (hsuits' : form'.Suits s') (hr : Delimited column column' r r')
    (h : form.line column s ++ r = form'.line column' s' ++ r') : s = s' ∧ r = r' := by
  obtain ⟨b, t, hbt, hform⟩ := exists_first hsuits column r
  obtain ⟨b', t', hbt', hform'⟩ := exists_first hsuits' column' r'
  obtain rfl : form = form' := by
    rw [hbt, hbt', List.cons.injEq] at h
    rw [hform, hform', h.1]
  cases form with
  | plain =>
    rw [Form.line, Form.line, ← List.append_cons, ← List.append_cons] at h
    exact append_cons_inj hs hs' h
  | single =>
    rw [Form.line, Form.line, ← List.append_cons, ← List.append_cons] at h
    obtain ⟨hquoted, hrest⟩ := append_cons_inj (line_notMem_singleQuoted hsuits.1 hs)
      (line_notMem_singleQuoted hsuits'.1 hs') h
    exact ⟨singleQuoted_inj hsuits.1 hsuits'.1 hsuits.2 hsuits'.2 hquoted, hrest⟩
  | double =>
    rw [Form.line, Form.line, ← List.append_cons, ← List.append_cons] at h
    obtain ⟨hquoted, hrest⟩ := append_cons_inj (line_notMem_doubleQuoted hsuits hs)
      (line_notMem_doubleQuoted hsuits' hs') h
    exact ⟨doubleQuoted_inj hsuits hsuits' hquoted, hrest⟩
  | binary => exact line_binary_append_inj hr h

theorem first_of_reservedWords : ∀ w ∈ reservedWords, ∀ b ∈ w.head?, Form.ofFirst b = .plain := by
  decide +kernel

theorem ofFirst_of_readsOtherwise {t : Bytes} (h : readsOtherwise (b :: t) = true) :
    Form.ofFirst b = .plain := by
  rw [readsOtherwise, Bool.or_eq_true] at h
  rcases h with h | h
  · exact first_of_reservedWords (b :: t) (List.contains_iff_mem.mp h) b rfl
  · simp only at h
    split at h
    · next hpoint => rw [hpoint]; rfl
    split at h
    · next hfirst =>
      simp only [Bool.or_eq_true, decide_eq_true_eq] at hfirst
      rcases hfirst with (rfl | rfl) | hdigit
      · rfl
      · rfl
      · rw [Form.ofFirst, if_neg, if_neg, if_neg] <;> rintro rfl <;> cases hdigit
    · cases h

/-- What is never written as a text: a word that reads as something else, or the empty list. -/
structure Reserved (w : Bytes) : Prop where
  line_notMem : 0x0A ∉ w
  reads : readsOtherwise w = true ∨ w = bytes "[]"

/-- A reserved word looks like a plain text, but it is none. -/
theorem Reserved.ne_line {form : Form} (hw : Reserved w) (hs : 0x0A ∉ s) (hsuits : form.Suits s)
    (column : Nat) : w ++ 0x0A :: r ≠ form.line column s ++ r' := by
  intro h
  obtain ⟨b, t, hbt, hform⟩ := Form.exists_first hsuits column r'
  have hplain : Form.ofFirst b = .plain := by
    rw [hbt] at h
    cases w with
    | nil =>
      rw [← (List.cons.inj h).1]
      rfl
    | cons c w =>
      rw [← (List.cons.inj h).1]
      rcases hw.reads with hread | hnothing
      · exact ofFirst_of_readsOtherwise hread
      · rw [(List.cons.inj hnothing).1]
        rfl
  rw [hplain] at hform
  subst hform
  rw [Form.line, ← List.append_cons] at h
  obtain ⟨rfl, -⟩ := append_cons_inj hw.line_notMem hs h
  rcases hw.reads with hread | rfl
  · exact Bool.eq_false_iff.mp hsuits.1 hread
  · nomatch hsuits.2 _ _ rfl

/-- The data that is written as a word. -/
inductive IsWord : Data → Bytes → Prop
  | null : IsWord .null (bytes "null")
  | yes : IsWord (.boolean true) (bytes "true")
  | no : IsWord (.boolean false) (bytes "false")
  | number (x : Binary64) : IsWord (.number x) (number x)
  | nothing : IsWord (.list []) (bytes "[]")

namespace IsWord

variable {w' : Bytes}

theorem write_eq (h : IsWord d w) (column : Nat) : write column d = w ++ [0x0A] := by
  cases h <;> rfl

theorem reserved (h : IsWord d w) : Reserved w := by
  cases h with
  | number x => exact ⟨line_notMem_number x, .inl (readsOtherwise_number x)⟩
  | nothing => exact ⟨by decide, .inr rfl⟩
  | _ => exact ⟨by decide, .inl (by decide)⟩

theorem number_ne {x : Binary64} {t : Bytes} (hb : isNumeric b = false) :
    Yaml.number x ≠ b :: t := by
  obtain ⟨c, u, hnumber, hc⟩ := exists_first_of_number x
  rw [hnumber, Ne, List.cons.injEq]
  rintro ⟨rfl, -⟩
  rw [hb] at hc
  nomatch hc

theorem inj (h : IsWord d w) (h' : IsWord d' w') (heq : w = w') : d = d' := by
  cases h <;> cases h' <;>
    first
      | rfl
      | rw [number_inj heq]
      | exact absurd heq (by decide)
      | exact absurd heq (number_ne rfl)
      | exact absurd heq.symm (number_ne rfl)

end IsWord

/-- Data without parts: a word, or a text of a single line. -/
inductive IsLeaf : Data → Prop
  | word {d : Data} {w : Bytes} (h : IsWord d w) : IsLeaf d
  | text {s : Bytes} (h : 0x0A ∉ s) : IsLeaf (.text s)

/-- The line of a leaf tells the leaf from what follows it. -/
theorem write_append_inj_of_isLeaf (hd : IsLeaf d) (hd' : IsLeaf d')
    (hr : Delimited column column' r r') (h : write column d ++ r = write column' d' ++ r') :
    d = d' ∧ r = r' := by
  cases hd with
  | word hw =>
    rw [hw.write_eq, ← List.append_cons] at h
    cases hd' with
    | word hw' =>
      rw [hw'.write_eq, ← List.append_cons] at h
      obtain ⟨hwords, hrest⟩ := append_cons_inj hw.reserved.line_notMem hw'.reserved.line_notMem h
      exact ⟨hw.inj hw' hwords, hrest⟩
    | text hs' =>
      obtain ⟨form, hsuits, hline⟩ := exists_form hs' column'
      rw [write, hline] at h
      exact absurd h (hw.reserved.ne_line hs' hsuits column')
  | text hs =>
    obtain ⟨form, hsuits, hline⟩ := exists_form hs column
    rw [write, hline] at h
    cases hd' with
    | word hw' =>
      rw [hw'.write_eq, ← List.append_cons] at h
      exact absurd h.symm (hw'.reserved.ne_line hs hsuits column)
    | text hs' =>
      obtain ⟨form', hsuits', hline'⟩ := exists_form hs' column'
      rw [write, hline'] at h
      obtain ⟨rfl, hrest⟩ := Form.line_append_inj hs hs' hsuits hsuits' hr h
      exact ⟨rfl, hrest⟩

/-- A leaf is told by its line, at whatever column it stands. -/
theorem write_inj_of_isLeaf (hd : IsLeaf d) (hd' : IsLeaf d')
    (h : write column d = write column' d') : d = d' := by
  have hends : write column d ++ [] = write column' d' ++ [] := by rw [h]
  exact (write_append_inj_of_isLeaf hd hd' (.inr ⟨rfl, rfl⟩) hends).1

/-- No text of a single line is written like an integer of 64 bits. -/
theorem write_text_ne_integer (hs : 0x0A ∉ s) {k : Int} (hlow : -2 ^ 63 ≤ k) (hhigh : k < 2 ^ 63) :
    write column (.text s) ≠ write column' (.integer k) := by
  have hreserved : Reserved (Bytes.signed k) :=
    ⟨line_notMem_signed k, .inl (readsOtherwise_signed (by omega))⟩
  obtain ⟨form, hsuits, hline⟩ := exists_form hs column
  rw [write, write, hline, ← List.append_nil (form.line column s)]
  exact (hreserved.ne_line hs hsuits column).symm

end SchemaDoc.Yaml
