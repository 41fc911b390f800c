import Mathlib.Data.List.Forall2
import SchemaDoc.Proofs.Descriptions
import SchemaDoc.Proofs.Text.Utf8

/-! # The indentation that lines have in common

The comments in front of a member are gathered in a buffer, which is taken and
emptied at the member. The lines lose as many white space characters as all of
them start with and no more, whatever the characters are and whether the lines
are valid texts or not.
-/

namespace SchemaDoc

open Character (encode first IsScalar)
open Description (indentation dedent)

variable {L α : Type} {code m n : Nat} {s t line out : Bytes} {lines outs : List Bytes}

/-- A line that is `n` white space characters, each as its own sequence, and `out`. -/
def Indented (n : Nat) (line out : Bytes) : Prop :=
  ∃ codes : List Nat, codes.length = n ∧ (∀ code ∈ codes, isSpace code = true) ∧
    line = codes.flatMap encode ++ out

theorem isScalar_of_isSpace (h : isSpace code = true) : IsScalar code := by
  simp only [isSpace, Bool.or_eq_true, Bool.and_eq_true, decide_eq_true_eq, beq_iff_eq] at h
  exact .inl (by omega)

theorem Indented.zero_iff : Indented 0 line out ↔ line = out := by
  constructor
  · rintro ⟨codes, hlength, -, rfl⟩
    rw [List.eq_nil_of_length_eq_zero hlength]
    rfl
  · rintro rfl
    exact ⟨[], rfl, nofun, rfl⟩

theorem Indented.succ_iff : Indented (n + 1) line out ↔
    ∃ code rest, isSpace code = true ∧ line = encode code ++ rest ∧ Indented n rest out := by
  constructor
  · rintro ⟨codes, hlength, hspace, rfl⟩
    obtain ⟨code, codes, rfl⟩ := List.exists_cons_of_length_eq_add_one hlength
    obtain ⟨hcode, hcodes⟩ := List.forall_mem_cons.mp hspace
    exact ⟨code, codes.flatMap encode ++ out, hcode, by simp,
      codes, Nat.succ.inj hlength, hcodes, rfl⟩
  · rintro ⟨code, rest, hcode, rfl, codes, rfl, hcodes, rfl⟩
    exact ⟨code :: codes, rfl, List.forall_mem_cons.mpr ⟨hcode, hcodes⟩, by simp⟩

theorem Description.indentation_encode_append (h : isSpace code = true) (s : Bytes) :
    indentation (encode code ++ s) = indentation s + 1 := by
  rw [indentation, Bytes.list_encode_append (isScalar_of_isSpace h),
    List.takeWhile_cons_of_pos (by exact h), List.length_cons]
  rfl

theorem Bytes.dropCharacters_encode_append (h : IsScalar code) (n : Nat) (s : Bytes) :
    dropCharacters (n + 1) (encode code ++ s) = dropCharacters n s := by
  have hfirst := first_encode_append h s
  obtain ⟨b, r, he⟩ := List.exists_cons_of_ne_nil (Character.encode_ne_nil h)
  rw [he, List.cons_append] at hfirst ⊢
  rw [dropCharacters, hfirst, ← List.cons_append, List.drop_left]

theorem Bytes.isValidUtf8_encode_append (h : IsScalar code) (s : Bytes) :
    (encode code ++ s).isValidUtf8 = s.isValidUtf8 := by
  rw [isValidUtf8, list_encode_append h, List.all_cons, isInvalid_encode]
  rfl

/-- A line that is not indented is empty or starts with a character that is no white space. -/
theorem Description.indentation_eq_zero_iff :
    indentation s = 0 ↔ s = [] ∨ isSpace (first s).code = false := by
  cases s with
  | nil => simp [indentation, Character.list, Character.listFrom]
  | cons b s =>
    rw [indentation, Character.list, Character.listFrom, List.takeWhile_cons]
    by_cases h : isSpace (first (b :: s)).code = true <;> simp [h]

/-- White space is read from its own sequence, since the replacement character is no white space. -/
theorem Description.exists_space_of_indentation (h : indentation s ≠ 0) :
    ∃ code rest, isSpace code = true ∧ s = encode code ++ rest := by
  rw [Ne, indentation_eq_zero_iff, not_or, Bool.not_eq_false] at h
  have hcode : (first s).code ≠ Character.replacement := by
    intro hreplaced
    rw [hreplaced] at h
    exact absurd h.2 (by decide)
  obtain ⟨u, rest, hs, hu⟩ := Character.exists_append_of_first hcode
  exact ⟨(first s).code, rest, h.2, by rwa [← Character.eq_encode_of_scalar? hu]⟩

theorem Indented.indentation_eq (h : Indented n line out) :
    indentation line = n + indentation out := by
  induction n generalizing line with
  | zero => rw [zero_iff.mp h, Nat.zero_add]
  | succ n ih =>
    obtain ⟨code, rest, hcode, rfl, hrest⟩ := succ_iff.mp h
    rw [Description.indentation_encode_append hcode, ih hrest]
    omega

theorem Indented.isValidUtf8_eq (h : Indented n line out) :
    line.isValidUtf8 = out.isValidUtf8 := by
  induction n generalizing line with
  | zero => rw [zero_iff.mp h]
  | succ n ih =>
    obtain ⟨code, rest, hcode, rfl, hrest⟩ := succ_iff.mp h
    rw [Bytes.isValidUtf8_encode_append (isScalar_of_isSpace hcode), ih hrest]

theorem le_indentation_of_forall₂ (h : List.Forall₂ (Indented n) lines outs) :
    ∀ line ∈ lines, n ≤ indentation line := by
  induction h with
  | nil => nofun
  | cons hline _ ih =>
    refine List.forall_mem_cons.mpr ⟨?_, ih⟩
    rw [hline.indentation_eq]
    exact Nat.le_add_right _ _

theorem isValidUtf8_of_forall₂ (h : List.Forall₂ (Indented n) lines outs)
    (hlines : ∀ line ∈ lines, line.isValidUtf8 = true) : ∀ out ∈ outs, out.isValidUtf8 = true := by
  induction h with
  | nil => nofun
  | cons hline _ ih =>
    rw [List.forall_mem_cons, hline.isValidUtf8_eq] at hlines
    exact List.forall_mem_cons.mpr ⟨hlines.1, ih hlines.2⟩

/-- What is removed from a line is white space as long as no more than its indentation is removed,
also where nothing is left of the line. -/
theorem indented_dropCharacters (h : n ≤ indentation line) :
    Indented n line (line.dropCharacters n) := by
  induction n generalizing line with
  | zero => exact Indented.zero_iff.mpr rfl
  | succ n ih =>
    obtain ⟨code, rest, hcode, rfl⟩ :=
      Description.exists_space_of_indentation (s := line) (by omega)
    rw [Description.indentation_encode_append hcode] at h
    rw [Bytes.dropCharacters_encode_append (isScalar_of_isSpace hcode)]
    exact Indented.succ_iff.mpr ⟨code, rest, hcode, rfl, ih (by omega)⟩

/-- Lines as their common indentation and the rest of each of them. -/
structure Dedented (n : Nat) (lines outs : List Bytes) : Prop where
  indented : List.Forall₂ (Indented n) lines outs
  greatest : ∀ m rests, List.Forall₂ (Indented m) lines rests → m ≤ n
  flush : ∃ out ∈ outs, out = [] ∨ isSpace (first out).code = false

/-- The indentation that is removed is the one of some line, and no line has less. -/
theorem Description.dedent_eq_join (h : lines ≠ []) :
    ∃ n, dedent lines = Bytes.join [0x0A] (lines.map (Bytes.dropCharacters n)) ∧
      (∃ line ∈ lines, indentation line = n) ∧ ∀ line ∈ lines, n ≤ indentation line := by
  obtain ⟨line, rest, rfl⟩ := List.exists_cons_of_ne_nil h
  obtain ⟨n, hmin⟩ : ∃ n, ((line :: rest).map indentation).min? = some n :=
    ⟨_, List.min?_cons'⟩
  obtain ⟨hmem, hle⟩ := List.min?_eq_some_iff.mp hmin
  refine ⟨n, ?_, List.mem_map.mp hmem, List.forall_mem_map.mp hle⟩
  rw [dedent, least_eq, ← List.map_cons, hmin, Option.getD_some]

theorem Description.exists_dedented (h : lines ≠ []) :
    ∃ n outs, dedent lines = Bytes.join [0x0A] outs ∧ Dedented n lines outs := by
  obtain ⟨n, hdedent, ⟨line, hline, hn⟩, hle⟩ := dedent_eq_join h
  refine ⟨n, lines.map (Bytes.dropCharacters n), hdedent, ?_, ?_, ?_⟩
  · rw [List.forall₂_map_right_iff, List.forall₂_same]
    exact fun line hline => indented_dropCharacters (hle line hline)
  · intro m rests hrests
    rw [← hn]
    exact le_indentation_of_forall₂ hrests line hline
  · refine ⟨line.dropCharacters n, List.mem_map_of_mem hline, ?_⟩
    have heq := (indented_dropCharacters (hle line hline)).indentation_eq
    exact indentation_eq_zero_iff.mp (by omega)

theorem Dedented.dedent_eq (h : Dedented n lines outs) : dedent outs = Bytes.join [0x0A] outs := by
  obtain ⟨out, hout, hflush⟩ := h.flush
  obtain ⟨k, hdedent, -, hle⟩ := Description.dedent_eq_join (List.ne_nil_of_mem hout)
  have hk : k = 0 := by
    have := hle out hout
    rw [Description.indentation_eq_zero_iff.mpr hflush] at this
    omega
  rw [hdedent, hk]
  congr 1
  exact List.map_id'' (fun _ => rfl) outs

theorem Bytes.isValidUtf8_join (h : ∀ line ∈ lines, line.isValidUtf8 = true) :
    (join [0x0A] lines).isValidUtf8 = true := by
  rw [isValidUtf8_iff]
  induction lines with
  | nil => exact .nil
  | cons line lines ih =>
    obtain ⟨hline, hlines⟩ := List.forall_mem_cons.mp h
    have hline := isValidUtf8_iff.mp hline
    cases lines with
    | nil => simpa [join] using hline
    | cons next lines =>
      have htail := IsUtf8.cons_ascii (b := 0x0A) (by decide) (ih hlines)
      simpa [join] using hline.append htail

namespace Description.Buffer

def pushAll (b : Buffer) (cs : List (Comment L)) : Buffer := cs.foldl push b

theorem lines_pushAll (b : Buffer) (cs : List (Comment L)) :
    (b.pushAll cs).lines = b.lines ++ cs.map Comment.content := by
  induction cs generalizing b with
  | nil => exact (List.append_nil _).symm
  | cons c cs ih =>
    change ((b.push c).pushAll cs).lines = _
    rw [ih, push, List.append_assoc, List.map_cons]
    rfl

theorem take_pushAll (cs : List (Comment L)) :
    (empty.pushAll cs).take = (dedent (cs.map Comment.content), empty) := by
  rw [take, lines_pushAll]
  rfl

theorem describedFrom_comments (b : Buffer) (cs : List (Comment L)) (rest : List (Element L α)) :
    describedFrom b (cs.map .comment ++ rest) = describedFrom (b.pushAll cs) rest := by
  induction cs generalizing b with
  | nil => rfl
  | cons c cs ih =>
    rw [List.map_cons, List.cons_append, describedFrom, ih]
    rfl

/-- A member has the text that is taken at it, and the elements behind it have none of it. -/
theorem described_comments (cs : List (Comment L)) (a : α) (rest : List (Element L α)) :
    described (cs.map .comment ++ .member a :: rest) =
      ((empty.pushAll cs).take.1, a) :: described rest := by
  rw [described, describedFrom_comments, describedFrom]
  rfl

/-- A run of comments is taken as its lines without the white space that all of them start with, one
below the other, and nothing is left in the buffer. Such lines have no common indentation any more,
and they are valid texts where the comments are. -/
theorem take_dedented {cs : List (Comment L)} (h : cs ≠ []) :
    ∃ n outs, (empty.pushAll cs).take = (Bytes.join [0x0A] outs, empty) ∧
      Dedented n (cs.map Comment.content) outs ∧
      (∀ {α : Type} (a : α) rest, described (cs.map .comment ++ .member a :: rest) =
        (Bytes.join [0x0A] outs, a) :: described rest) ∧
      (∀ cs' : List (Comment L), cs'.map Comment.content = outs →
        (empty.pushAll cs').take.1 = Bytes.join [0x0A] outs) ∧
      ((∀ c ∈ cs, c.content.isValidUtf8 = true) →
        (Bytes.join [0x0A] outs).isValidUtf8 = true) := by
  have hlines : cs.map Comment.content ≠ [] := by simpa using h
  obtain ⟨n, outs, hdedent, houts⟩ := exists_dedented hlines
  have htake : (empty.pushAll cs).take = (Bytes.join [0x0A] outs, empty) := by
    rw [take_pushAll, hdedent]
  refine ⟨n, outs, htake, houts, fun a rest => ?_, fun cs' hcs' => ?_, fun hvalid => ?_⟩
  · rw [described_comments, htake]
  · rw [take_pushAll, hcs', houts.dedent_eq]
  · exact Bytes.isValidUtf8_join
      (isValidUtf8_of_forall₂ houts.indented (List.forall_mem_map.mpr hvalid))

/-- Lines that start with an ideographic space, a tab or nothing but spaces, the second of them with
a byte that belongs to no sequence. -/
def spacedComments : List (Comment Unit) :=
  [⟨(), [0x23, 0xE3, 0x80, 0x80, 0x20, 0x61]⟩, ⟨(), [0x23, 0x20, 0x09, 0x20, 0xFF]⟩,
    ⟨(), [0x23, 0x20, 0x20]⟩]

theorem spacedComments_take :
    spacedComments ≠ [] ∧
      (empty.pushAll spacedComments).take = ([0x61, 0x0A, 0x20, 0xFF, 0x0A], empty) ∧
      ∃ n outs, (empty.pushAll spacedComments).take = (Bytes.join [0x0A] outs, empty) ∧
        Dedented n (spacedComments.map Comment.content) outs ∧
        (∀ {α : Type} (a : α) rest, described (spacedComments.map .comment ++ .member a :: rest) =
          (Bytes.join [0x0A] outs, a) :: described rest) ∧
        (∀ cs' : List (Comment Unit), cs'.map Comment.content = outs →
          (empty.pushAll cs').take.1 = Bytes.join [0x0A] outs) ∧
        ((∀ c ∈ spacedComments, c.content.isValidUtf8 = true) →
          (Bytes.join [0x0A] outs).isValidUtf8 = true) := by
  have h : spacedComments ≠ [] := by simp [spacedComments]
  exact ⟨h, rfl, take_dedented h⟩

end Description.Buffer

end SchemaDoc
