import SchemaDoc.Proofs.Grammar.Outcome
import SchemaDoc.Proofs.Layout.Extension

/-! # Outcomes in a longer text

A rule that has matched or failed has done so at a cursor to which the tokens of
the text lead, and what a failure says is true of that cursor. When text is left
there, the outcome does not change if a line feed and any further text follow.
So two runs are compared, one on a text and one on the longer text: they can
part only where the first one has come to its end.
-/

namespace SchemaDoc.Grammar

variable {α β : Type} {r : Bytes} {c d m : Cursor} {o o' : Outcome α} {qs : List Placed}

/-- The length of the text behind the trivia at the cursor. -/
def Cursor.ahead (c : Cursor) : Nat := c.skipTrivia.rest.length

@[simp] theorem Cursor.ahead_skipTrivia (c : Cursor) : c.skipTrivia.ahead = c.ahead := by
  rw [ahead, skipTrivia_skipTrivia, ahead]

@[simp] theorem Cursor.atEnd_skipTrivia : c.skipTrivia.AtEnd ↔ c.AtEnd := by
  rw [AtEnd, skipTrivia_skipTrivia, AtEnd]

theorem Cursor.ahead_le (c : Cursor) : c.ahead ≤ c.rest.length := c.reaches_skipTrivia.length_le

theorem Token.Reads.ahead_lt {t : Token} (h : t.Reads c d) : d.ahead < c.ahead := by
  obtain ⟨b, s, hs, -, -⟩ := h.reading.exists_text
  rw [Cursor.ahead, Cursor.ahead, hs, List.length_append, List.length_cons]
  omega

theorem Reading.ahead_le (h : Reading c qs d) : d.ahead ≤ c.ahead := h.reaches.length_le

theorem Reading.atEnd (h : Reading c qs d) (hc : c.AtEnd) : d.AtEnd := by
  have hle := h.ahead_le
  rw [Cursor.ahead, Cursor.ahead, hc] at hle
  exact List.eq_nil_of_length_eq_zero (by simpa using hle)

/-- What the cause of a failure says is true of its place `m`, to which the tokens `qs` lead. -/
def Cause.Tells (qs : List Placed) (m : Cursor) : Cause → Prop
  | .missing _ found => found = m.found
  | .missingToken token found => token ∈ marks ∧ found = m.found
  | .unexpectedCharacter found => found = m.found ∧ ¬ m.AtEnd
  | .unexpectedNode _ => False
  | .inputFieldArguments field =>
    (∃ p, qs.getLast? = some p ∧ p.token = .word field) ∧ ∃ s, m.skipTrivia.rest = 0x28 :: s
  | .invalidNumber literal => IsNumber literal ∧ literal <+: m.skipTrivia.rest
  | .invalidString literal =>
    (∃ v, literal = quote v ∧ ∀ b ∈ v, b ≠ 0x0A) ∧ literal <+: m.skipTrivia.rest

theorem Cause.Tells.append_left {cause : Cause} (h : cause.Tells qs m) (ps : List Placed) :
    cause.Tells (ps ++ qs) m := by
  cases cause with
  | inputFieldArguments field =>
    obtain ⟨⟨p, hp, hword⟩, hparen⟩ := h
    refine ⟨⟨p, ?_, hword⟩, hparen⟩
    rw [List.getLast?_append, hp, Option.some_or]
  | _ => exact h

/-- The first outcome is a match or a failure at a cursor to which tokens lead from `c`, and the
second one is the same unless that cursor is at the end of the text. -/
inductive Commits (r : Bytes) (c : Cursor) : Outcome α → Outcome α → Prop where
  | matched {qs : List Placed} {a : α} {m : Cursor} {o' : Outcome α} :
      Reading c qs m → c.Reaches m → (¬ m.AtEnd → o' = .matched a (m.extend (0x0A :: r))) →
        Commits r c (.matched a m) o'
  | failed {qs : List Placed} {cause : Cause} {m : Cursor} {o' : Outcome α} :
      Reading c qs m → cause.Tells qs m →
        (¬ m.AtEnd → o' = .failed ⟨m.skipTrivia.offset, cause⟩) →
        Commits r c (.failed ⟨m.skipTrivia.offset, cause⟩) o'

/-- The outcomes of a rule that may not match: then it gives `c` back, and where it matches, it
takes a token. -/
inductive Tries (r : Bytes) (c : Cursor) : Outcome α → Outcome α → Prop where
  | noMatch {o' : Outcome α} :
      (¬ c.AtEnd → o' = .noMatch (c.extend (0x0A :: r))) → Tries r c (.noMatch c) o'
  | commits {o o' : Outcome α} :
      Commits r c o o' → (∀ a m, o = .matched a m → m.ahead < c.ahead) → Tries r c o o'

namespace Commits

theorem bounds {a : α} (h : Commits r c (.matched a m) o') :
    c.Reaches m ∧ m.ahead ≤ c.ahead := by
  cases h with
  | matched hread hreach _ => exact ⟨hreach, hread.ahead_le⟩

/-- Behind the tokens that lead from `c` to `m`. -/
theorem after (h : Commits r m o o') (hread : Reading c qs m) (hreach : c.Reaches m) :
    Commits r c o o' := by
  cases h with
  | matched hread' hreach' hlast =>
    exact .matched (hread.append hread') (hreach.trans hreach') hlast
  | failed hread' htells hlast => exact .failed (hread.append hread') (htells.append_left _) hlast

/-- The second outcome matters only in front of the end. -/
theorem congr {p : Outcome α} (h : Commits r c o p) (hp : ¬ c.AtEnd → p = o') :
    Commits r c o o' := by
  by_cases hc : c.AtEnd
  · cases h with
    | matched hread hreach _ => exact .matched hread hreach fun hm => absurd (hread.atEnd hc) hm
    | failed hread htells _ => exact .failed hread htells fun hm => absurd (hread.atEnd hc) hm
  · rw [← hp hc]
    exact h

theorem here (a : α) (c : Cursor) :
    Commits r c (.matched a c) (.matched a (c.extend (0x0A :: r))) :=
  .matched (.nil rfl) (.refl c) fun _ => rfl

theorem skipped (a : α) (c : Cursor) :
    Commits r c (.matched a c.skipTrivia) (.matched a (c.extend (0x0A :: r)).skipTrivia) := by
  refine .matched (.nil c.skipTrivia_skipTrivia.symm) c.reaches_skipTrivia fun hc => ?_
  rw [Cursor.atEnd_skipTrivia] at hc
  rw [Cursor.skipTrivia_extend_line hc]

/-- A failure at `c` itself. -/
theorem fail {cause : Cause} (htells : cause.Tells [] c) :
    Commits r c (c.fail cause : Outcome α) ((c.extend (0x0A :: r)).fail cause) := by
  refine .failed (.nil rfl) htells fun hc => ?_
  rw [Cursor.fail, Cursor.skipTrivia_extend_line hc]
  rfl

theorem andThen {f f' : α → Cursor → Outcome β} (h : Commits r c o o')
    (hf : ∀ a m, o = .matched a m → c.Reaches m → m.ahead ≤ c.ahead →
      Commits r m (f a m) (f' a (m.extend (0x0A :: r)))) :
    Commits r c (o.andThen f) (o'.andThen f') := by
  cases h with
  | @matched qs a m o' hread hreach hlast =>
    apply Commits.after _ hread hreach
    apply (hf a m rfl hreach hread.ahead_le).congr
    intro hm
    rw [hlast hm]
    rfl
  | failed hread htells hlast =>
    refine .failed hread htells fun hm => ?_
    rw [hlast hm]
    rfl

theorem map {f : α → β} (h : Commits r c o o') : Commits r c (o.map f) (o'.map f) :=
  h.andThen fun a m _ _ _ => here (f a) m

end Commits

namespace Tries

theorem congr {p : Outcome α} (h : Tries r c o p) (hp : ¬ c.AtEnd → p = o') : Tries r c o o' := by
  cases h with
  | noMatch hlast => exact .noMatch fun hc => (hp hc).symm.trans (hlast hc)
  | commits h hlt => exact .commits (h.congr hp) hlt

theorem ahead_lt {a : α} (h : Tries r c (.matched a m) o') : m.ahead < c.ahead := by
  cases h with
  | commits _ hlt => exact hlt a m rfl

theorem eq_of_matched {a : α} (h : Tries r c (.matched a m) o') (hm : ¬ m.AtEnd) :
    o' = .matched a (m.extend (0x0A :: r)) := by
  cases h with
  | commits h _ =>
    cases h with
    | matched _ _ hlast => exact hlast hm

/-- A token that is there but refused is a failure in its place. -/
theorem refused {cause : Cause} (htells : cause.Tells [] c) :
    Tries r c (c.fail cause : Outcome α) ((c.extend (0x0A :: r)).fail cause) :=
  .commits (.fail htells) nofun

/-- A rule commits behind its first token. -/
theorem taken {t : Token} (ht : t.Reads c m) (h : Commits r m o o') : Tries r c o o' := by
  refine .commits (h.after ht.reading ht.reaches) ?_
  rintro a d rfl
  exact Nat.lt_of_le_of_lt h.bounds.2 ht.ahead_lt

theorem andThen {f f' : α → Cursor → Outcome β} (h : Tries r c o o')
    (hf : ∀ a m, o = .matched a m → c.Reaches m → m.ahead < c.ahead →
      Commits r m (f a m) (f' a (m.extend (0x0A :: r)))) :
    Tries r c (o.andThen f) (o'.andThen f') := by
  cases h with
  | noMatch hlast =>
    refine .noMatch fun hc => ?_
    rw [hlast hc]
    rfl
  | commits h hlt =>
    refine .commits (h.andThen fun a m ho hreach _ => hf a m ho hreach (hlt a m ho)) ?_
    intro b d hd
    obtain ⟨a, m, rfl, hm⟩ := Outcome.andThen_eq_matched.mp hd
    have hlt' := hlt a m rfl
    have hcommits := hf a m rfl h.bounds.1 hlt'
    rw [hm] at hcommits
    exact Nat.lt_of_le_of_lt hcommits.bounds.2 hlt'

theorem map {f : α → β} (h : Tries r c o o') : Tries r c (o.map f) (o'.map f) :=
  h.andThen fun a m _ _ _ => .here (f a) m

theorem orElse {p p' : Outcome α} (h : Tries r c o o') (hp : Tries r c p p') :
    Tries r c (o.orElse fun _ => p) (o'.orElse fun _ => p') := by
  cases h with
  | noMatch hlast =>
    apply hp.congr
    intro hc
    rw [hlast hc]
    rfl
  | commits h hlt =>
    cases h with
    | matched hread hreach hlast =>
      refine .commits (.matched hread hreach fun hm => ?_) hlt
      rw [hlast hm]
      rfl
    | failed hread htells hlast =>
      refine .commits (.failed hread htells fun hm => ?_) hlt
      rw [hlast hm]
      rfl

/-- A rule that must match commits at once. -/
theorem require (h : Tries r c o o') (construct : Construct) :
    Commits r c (o.require construct) (o'.require construct) := by
  cases h with
  | noMatch hlast =>
    have hfail : Commits r c (c.fail (.missing construct c.found) : Outcome α) _ := .fail rfl
    apply hfail.congr
    intro hc
    rw [hlast hc, Outcome.require, Cursor.found_extend_line hc]
  | commits h _ =>
    cases h with
    | matched hread hreach hlast =>
      refine .matched hread hreach fun hm => ?_
      rw [hlast hm]
      rfl
    | failed hread htells hlast =>
      refine .failed hread htells fun hm => ?_
      rw [hlast hm]
      rfl

theorem optional {rule rule' : Rule α} (h : Tries r c (rule c) (rule' (c.extend (0x0A :: r)))) :
    Commits r c (optional rule c) (optional rule' (c.extend (0x0A :: r))) := by
  simp only [Grammar.optional]
  generalize rule c = o, rule' (c.extend (0x0A :: r)) = o' at h
  cases h with
  | noMatch hlast =>
    apply (Commits.here none c).congr
    intro hc
    rw [hlast hc]
  | commits h _ =>
    cases h with
    | matched hread hreach hlast =>
      refine .matched hread hreach fun hm => ?_
      rw [hlast hm]
    | failed hread htells hlast =>
      refine .failed hread htells fun hm => ?_
      rw [hlast hm]

end Tries

theorem expect_commits {token : Bytes} (ht : token ∈ marks) (c : Cursor) :
    Commits r c (expect token c) (expect token (c.extend (0x0A :: r))) := by
  rw [expect, expect]
  rcases c.literal?_lines ht r with ⟨m, hread, hm, hm'⟩ | ⟨hnone, hnone'⟩
  · rw [hm, hm']
    exact .matched hread.reading hread.reaches fun _ => rfl
  · rw [hnone]
    have hfail : Commits r c (c.fail (.missingToken token c.found) : Outcome Unit) _ :=
      .fail ⟨ht, rfl⟩
    apply hfail.congr
    intro hc
    rw [hnone' hc, Cursor.found_extend_line hc]

theorem literal_tries {f f' : Cursor → Outcome α} {token : Bytes} (ht : token ∈ marks)
    (hf : ∀ m, m.ahead < c.ahead → Commits r m (f m) (f' (m.extend (0x0A :: r)))) :
    Tries r c (match c.literal? token with | none => .noMatch c | some m => f m)
      (match (c.extend (0x0A :: r)).literal? token with
        | none => .noMatch (c.extend (0x0A :: r))
        | some m => f' m) := by
  rcases c.literal?_lines ht r with ⟨m, hread, hm, hm'⟩ | ⟨hnone, hnone'⟩
  · rw [hm, hm']
    exact .taken hread (hf m hread.ahead_lt)
  · rw [hnone]
    refine .noMatch fun hc => ?_
    rw [hnone' hc]

theorem afterKeyword_tries {rule : Rule α} {word : Bytes} (hw : IsIdentifier word)
    (h : ∀ m, Commits r m (rule m) (rule (m.extend (0x0A :: r)))) (c : Cursor) :
    Tries r c (afterKeyword word rule c) (afterKeyword word rule (c.extend (0x0A :: r))) := by
  rw [afterKeyword, afterKeyword]
  rcases c.keyword?_lines hw r with ⟨m, hread, hm, hm'⟩ | ⟨hnone, hnone'⟩
  · rw [hm, hm']
    exact .taken hread (h m)
  · rw [hnone]
    refine .noMatch fun hc => ?_
    rw [hnone' hc]

theorem lexeme_tries {l : Lexeme} {f f' : Bytes → Cursor → Outcome α}
    (hf : ∀ t m, c.lexeme? l = some (t, m) → Tries r c (f t m) (f' t (m.extend (0x0A :: r)))) :
    Tries r c (match c.lexeme? l with | some (t, m) => f t m | none => .noMatch c)
      (match (c.extend (0x0A :: r)).lexeme? l with
        | some (t, m) => f' t m
        | none => .noMatch (c.extend (0x0A :: r))) := by
  rcases c.lexeme?_lines l r with ⟨t, m, hm, hm'⟩ | ⟨hnone, hnone'⟩
  · rw [hm, hm']
    exact hf t m hm
  · rw [hnone]
    refine .noMatch fun hc => ?_
    rw [hnone' hc]

/-- The text between two cursors is the same in a longer text. -/
theorem Cursor.Reaches.take_extend (h : c.Reaches m) (r : Bytes) :
    (c.extend r).rest.take ((m.extend r).offset - (c.extend r).offset) =
      c.rest.take (m.offset - c.offset) := by
  obtain ⟨w, hw, ho⟩ := h
  have hle : m.offset - c.offset ≤ c.rest.length := by
    rw [ho, hw, List.length_append]
    omega
  exact List.take_append_of_le_length hle

/-- The match of a node from `start` to `next`, less the trivia at its end. -/
private def place (start : Cursor) (w : Span → α) (next : Cursor) : Outcome α :=
  .matched (w ⟨start.offset, start.offset +
    (trimRight (start.rest.take (next.offset - start.offset))).length⟩) next.skipTrivia

private theorem place_commits {start : Cursor} (hreach : start.Reaches m) (w : Span → α) :
    Commits r m (place start w m)
      (place (start.extend (0x0A :: r)) w (m.extend (0x0A :: r))) := by
  rw [place, place, hreach.take_extend]
  exact .skipped _ m

private theorem positioned_extend_line {rule : Rule (Span → α)} (hc : ¬ c.AtEnd) :
    ((rule (c.skipTrivia.extend (0x0A :: r))).andThen
        (place (c.skipTrivia.extend (0x0A :: r)))).backTo (c.extend (0x0A :: r)) =
      positioned rule (c.extend (0x0A :: r)) := by
  rw [← Cursor.skipTrivia_extend_line hc]
  rfl

theorem Commits.backTo (h : Commits r c o o') (d d' : Cursor) :
    Commits r c (o.backTo d) (o'.backTo d') := by
  cases h with
  | matched hread hreach hlast =>
    refine .matched hread hreach fun hm => ?_
    rw [hlast hm]
    rfl
  | failed hread htells hlast =>
    refine .failed hread htells fun hm => ?_
    rw [hlast hm]
    rfl

theorem Commits.skipLeft (h : Commits r c.skipTrivia o o') : Commits r c o o' :=
  h.after (.nil c.skipTrivia_skipTrivia.symm) c.reaches_skipTrivia

theorem Tries.backTo (h : Tries r c o o') :
    Tries r c (o.backTo c) (o'.backTo (c.extend (0x0A :: r))) := by
  cases h with
  | noMatch hlast =>
    refine .noMatch fun hc => ?_
    rw [hlast hc]
    rfl
  | commits h hlt =>
    exact .commits (h.backTo _ _) fun a m hm => hlt a m (Outcome.backTo_eq_matched.mp hm)

/-- Without a match the trivia is given back too. -/
theorem Tries.skipLeft (h : Tries r c.skipTrivia o o') :
    Tries r c (o.backTo c) (o'.backTo (c.extend (0x0A :: r))) := by
  cases h with
  | noMatch hlast =>
    refine .noMatch fun hc => ?_
    rw [hlast (by simpa using hc)]
    rfl
  | commits h hlt =>
    refine .commits (h.skipLeft.backTo _ _) fun a m hm => ?_
    simpa using hlt a m (Outcome.backTo_eq_matched.mp hm)

theorem Commits.positioned {rule rule' : Rule (Span → α)}
    (h : Commits r c.skipTrivia (rule c.skipTrivia) (rule' (c.skipTrivia.extend (0x0A :: r)))) :
    Commits r c (positioned rule c) (positioned rule' (c.extend (0x0A :: r))) := by
  have hplaced := h.andThen fun w _ _ hreach _ => place_commits hreach w
  exact (hplaced.skipLeft.backTo c _).congr positioned_extend_line

theorem Tries.positioned {rule rule' : Rule (Span → α)}
    (h : Tries r c.skipTrivia (rule c.skipTrivia) (rule' (c.skipTrivia.extend (0x0A :: r)))) :
    Tries r c (positioned rule c) (positioned rule' (c.extend (0x0A :: r))) := by
  have hplaced := h.andThen fun w _ _ hreach _ => place_commits hreach w
  exact hplaced.skipLeft.congr positioned_extend_line

end SchemaDoc.Grammar
