import SchemaDoc.Proofs.Grammar.Cursor
import SchemaDoc.Proofs.Text.Boundary
import SchemaDoc.Proofs.Text.Utf8

/-! # The trimmed end

Trimming reads characters from the right, everything else reads them from the left.
Both cut a text at the same places, since no sequence goes over the start of
another one. So the trimmed end of a part of a text is where the last character
that is no trivia ends for a reader who comes from the left.
-/

namespace SchemaDoc.Grammar

open Character (Boundary ends first list)

variable {α : Type} {body g s t : Bytes} {start stop : Nat}

/-- The end of the last character of a text that is no trivia, read from the left and counted from
an offset on; the offset itself if there is no such character. -/
def lastEnd (o : Nat) (s : Bytes) : Nat :=
  (((ends o (list s)).filter fun r => !isTrivia r.1.code).map Prod.snd).getLastD o

theorem Gap.isTrivia_of_mem (hg : Gap g) : ∀ r ∈ list g, isTrivia r.code = true := by
  obtain ⟨codes, hcodes, rfl⟩ := hg
  induction codes with
  | nil => nofun
  | cons code codes ih =>
    obtain ⟨hcode, hcodes⟩ := List.forall_mem_cons.mp hcodes
    rw [List.flatMap_cons, Bytes.list_encode_append (isScalar_of_isTrivia hcode),
      List.forall_mem_cons]
    exact ⟨hcode, ih hcodes⟩

theorem Gap.boundary (hg : Gap g) (hend : Boundary (t ++ (g ++ s)) (t.length + g.length)) :
    Boundary (t ++ (g ++ s)) t.length := by
  rcases hg.eq_nil_or_append with rfl | ⟨code, u, hcode, -, rfl⟩
  · exact hend
  · rw [List.append_assoc]
    exact .before_sequence (scalar?_encode_of_isTrivia hcode) t (u ++ s)

theorem exists_list_concat (ht : t ≠ []) (hend : ¬ EndsTrivial t) :
    ∃ m r, Boundary t m ∧ list (t.drop m) = [r] ∧ m + r.width = t.length ∧
      isTrivia r.code = false := by
  obtain ⟨m, hm, hne, hwidth⟩ := (Boundary.length t).exists_last (List.length_pos_iff.mpr ht)
  have hlength : (t.drop m).length = (first (t.drop m)).width := by
    rw [List.length_drop]
    omega
  refine ⟨m, first (t.drop m), hm, ?_, hwidth, Bool.eq_false_iff.mpr fun htrivia => hend ?_⟩
  · rw [Character.list_eq_cons hne, List.drop_eq_nil_of_le (Nat.le_of_eq hlength)]
    rfl
  · -- A trivia character is read from its own sequence, which is all that is left of the text.
    rcases Character.first_cases (t.drop m) with ⟨u, v, huv, hu, hu'⟩ | hinvalid
    · rw [huv, List.length_append, ← huv, hu'] at hlength
      obtain rfl := List.eq_nil_of_length_eq_zero (show v.length = 0 by omega)
      rw [List.append_nil] at huv
      refine ⟨_, htrivia, ?_⟩
      rw [← Character.eq_encode_of_scalar? hu, ← huv]
      exact List.drop_suffix m t
    · exact absurd (congrArg Character.code hinvalid) (ne_replacement_of_isTrivia htrivia)

theorem lastEnd_append_gap (h : Boundary (t ++ g) t.length) (hg : Gap g) (o : Nat) :
    lastEnd o (t ++ g) = lastEnd o t := by
  have hends := h.ends_eq o
  rw [List.take_left, List.drop_left] at hends
  have hgap : (ends (o + t.length) (list g)).filter (fun r => !isTrivia r.1.code) = [] := by
    rw [List.filter_eq_nil_iff]
    intro r hr
    have hmem : r.1 ∈ list g := by
      rw [← Character.map_fst_ends (o + t.length) (list g)]
      exact List.mem_map_of_mem hr
    simp [hg.isTrivia_of_mem r.1 hmem]
  rw [lastEnd, hends, List.filter_append, hgap, List.append_nil, lastEnd]

theorem lastEnd_of_not_endsTrivial (h : ¬ EndsTrivial t) (o : Nat) :
    lastEnd o t = o + t.length := by
  by_cases ht : t = []
  · rw [ht]
    rfl
  · obtain ⟨m, r, hm, hlist, hwidth, hr⟩ := exists_list_concat ht h
    rw [lastEnd, hm.ends_eq o, hlist, ← hwidth, ← Nat.add_assoc]
    simp [ends, hr]

/-- Trimming from the right cuts a text where its last character that is no trivia ends. -/
theorem length_trimRight (o : Nat) (s : Bytes) : o + (trimRight s).length = lastEnd o s := by
  obtain ⟨hend, g, hg, hs⟩ := trimRight_spec s
  generalize trimRight s = t at *
  subst hs
  have hcut := hg.boundary (t := t) (s := [])
  rw [List.append_nil, ← List.length_append] at hcut
  rw [lastEnd_append_gap (hcut (.length _)) hg, lastEnd_of_not_endsTrivial hend]

theorem Cursor.skipTrivia_atOffset (body : Bytes) (off : Nat) :
    (atOffset body off).skipTrivia = atOffset body (off + triviaLength (body.drop off)) := by
  simp only [skipTrivia, advance, atOffset, List.drop_drop]

theorem Cursor.offset_skipTrivia (body : Bytes) (off : Nat) :
    (atOffset body off).skipTrivia.offset = off + triviaLength (body.drop off) := rfl

theorem exists_gap_trimmedEnd (hle : start ≤ stop)
    (hstop : stop - start ≤ (body.drop start).length) :
    ∃ t g, body.drop start = t ++ (g ++ body.drop stop) ∧ Gap g ∧
      trimmedEnd body start stop = start + t.length ∧ start + t.length + g.length = stop := by
  obtain ⟨-, g, hg, hpart⟩ := trimRight_spec ((body.drop start).take (stop - start))
  have hdrop : (body.drop start).drop (stop - start) = body.drop stop := by
    rw [List.drop_drop, Nat.add_sub_cancel' hle]
  have hlength := congrArg List.length hpart
  rw [List.length_take_of_le hstop, List.length_append] at hlength
  refine ⟨_, g, ?_, hg, rfl, by omega⟩
  rw [← List.append_assoc, ← hpart, ← hdrop, List.take_append_drop]

theorem trimmedEnd_skipTrivia (hle : start ≤ stop) :
    trimmedEnd body start (Cursor.atOffset body stop).skipTrivia.offset =
      trimmedEnd body start stop := by
  obtain ⟨hgap, -⟩ := triviaLength_spec (body.drop stop)
  have hlength : (Cursor.atOffset body stop).skipTrivia.offset - start =
      stop - start + triviaLength (body.drop stop) := by
    rw [Cursor.offset_skipTrivia]
    omega
  rw [trimmedEnd, trimmedEnd, hlength, List.take_add, List.drop_drop, Nat.add_sub_cancel' hle,
    trimRight_append_gap hgap]

/-- A rule between trivia gives its result the span up to the trimmed end, in the whole text, of
what it took. -/
theorem positioned_atOffset (rule : Rule (Span → α)) {off : Nat}
    (hstart : (Cursor.atOffset body off).skipTrivia = .atOffset body start) :
    positioned rule (.atOffset body off) =
      ((rule (.atOffset body start)).andThen fun located next =>
        .matched (located ⟨start, trimmedEnd body start next.offset⟩) next.skipTrivia).backTo
          (.atOffset body off) := by
  simp only [positioned, hstart]
  rfl

/-- The trimmed end of a part of a text that is cut between characters is the end of its last
character that is no trivia, read from the left, or its start if there is none. It lies between
characters, too, and the trivia behind it goes on to the end of the part and further. That trivia
has no influence: the span of what was read can be told from the place where the reading goes on. -/
theorem trimmedEnd_forward (hle : start ≤ stop) (h : Boundary (body.drop start) (stop - start)) :
    trimmedEnd body start stop = lastEnd start ((body.drop start).take (stop - start)) ∧
    (start ≤ trimmedEnd body start stop ∧ trimmedEnd body start stop ≤ stop ∧
      Boundary (body.drop start) (trimmedEnd body start stop - start)) ∧
    stop ≤ (Cursor.atOffset body (trimmedEnd body start stop)).skipTrivia.offset ∧
    trimmedEnd body start (Cursor.atOffset body stop).skipTrivia.offset =
      trimmedEnd body start stop ∧
    ∀ {α : Type} (rule : Rule (Span → α)) (located : Span → α) (off : Nat),
      (Cursor.atOffset body off).skipTrivia = .atOffset body start →
      rule (.atOffset body start) = .matched located (.atOffset body stop) →
      positioned rule (.atOffset body off) =
        .matched
          (located ⟨start, trimmedEnd body start (Cursor.atOffset body stop).skipTrivia.offset⟩)
          (Cursor.atOffset body stop).skipTrivia := by
  obtain ⟨t, g, hdrop, hg, hend, hstop⟩ := exists_gap_trimmedEnd hle h.le_length
  have hlength : stop - start = t.length + g.length := by omega
  refine ⟨length_trimRight _ _, ⟨by omega, by omega, ?_⟩, ?_, trimmedEnd_skipTrivia hle, ?_⟩
  · rw [hdrop, hlength] at h
    rw [hdrop, hend, Nat.add_sub_cancel_left]
    exact hg.boundary h
  · have hrest : body.drop (start + t.length) = g ++ body.drop stop := by
      rw [← List.drop_drop, hdrop, List.drop_left]
    rw [hend, Cursor.offset_skipTrivia, hrest, triviaLength_append hg]
    omega
  · intro α rule located off hstart hrule
    rw [trimmedEnd_skipTrivia hle, positioned_atOffset rule hstart, hrule]
    rfl

/-- A comment behind a comma: an ideographic space, the first byte of a sequence that is cut off,
a space and a byte order mark, up to the end of its line. -/
def paddedComment : Bytes :=
  [0x2C, 0x23, 0xE3, 0x80, 0x80, 0xC3, 0x20, 0xEF, 0xBB, 0xBF, 0x0A, 0x62]

/-- The byte that belongs to no sequence ends the comment, and what is behind it is trivia. -/
theorem paddedComment_trimmed :
    Boundary (paddedComment.drop 1) 9 ∧ trimmedEnd paddedComment 1 10 = 6 ∧
    lastEnd 1 ((paddedComment.drop 1).take 9) = 6 ∧ Boundary (paddedComment.drop 1) 5 ∧
    10 ≤ (Cursor.atOffset paddedComment 6).skipTrivia.offset ∧
    trimmedEnd paddedComment 1 11 = 6 ∧
    comment (.atOffset paddedComment 0) =
      .matched ⟨⟨1, 6⟩, (paddedComment.drop 1).take 9⟩ (.atOffset paddedComment 11) := by
  have hline : Boundary (paddedComment.drop 1) (10 - 1) :=
    .before_ascii (b := 0x0A) (by decide) ((paddedComment.drop 1).take 9) [0x62]
  have hend : trimmedEnd paddedComment 1 10 = 6 := by decide
  obtain ⟨hlast, ⟨-, -, hboundary⟩, hskip, hafter, hspan⟩ :=
    trimmedEnd_forward (by decide : 1 ≤ 10) hline
  have hcomment : comment (.atOffset paddedComment 0) = .matched
      ⟨⟨1, trimmedEnd paddedComment 1 11⟩, (paddedComment.drop 1).take 9⟩
      (.atOffset paddedComment 11) := by
    rw [comment]
    exact hspan _ (fun loc => Comment.mk loc ((paddedComment.drop 1).take 9)) 0 rfl rfl
  change trimmedEnd paddedComment 1 11 = _ at hafter
  rw [hafter] at hcomment
  rw [hend] at hlast hboundary hskip hafter hcomment
  exact ⟨hline, hend, hlast.symm, hboundary, hskip, hafter, hcomment⟩

end SchemaDoc.Grammar
