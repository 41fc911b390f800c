import SchemaDoc.Fault
import SchemaDoc.Proofs.Failures.Rules

/-! # The failures of a source

A text that does not parse is refused at one place. The code and the message of
the refusal, its offset, its line and its column all speak of the character at
that place, and unless this is the end of the text, no further lines change
anything about it.
-/

namespace SchemaDoc

open Grammar

variable {body : Bytes} {e : SyntaxError}

theorem Grammar.Cause.Tells.congr {qs : List Placed} {c d : Cursor} {cause : Cause}
    (h : cause.Tells qs c) (hc : c.skipTrivia = d.skipTrivia) : cause.Tells qs d := by
  have hfound : c.found = d.found := by rw [Cursor.found, Cursor.found, hc]
  cases cause with
  | unexpectedNode kind => exact h
  | _ => simpa only [Cause.Tells, Cursor.AtEnd, hc, hfound] using h

/-- A text fails at a place where no trivia stands and of which the cause is true. When that is not
the end of the text, it fails in the same way with a line feed and any further text behind it. -/
theorem Document.exists_of_error (h : Document.parse body = .error e) (x : Bytes) :
    e.offset ≤ body.length ∧ ¬ StartsTrivial (body.drop e.offset) ∧
      (∃ qs, Reading (.ofBody body) qs (.atOffset body e.offset) ∧
        e.cause.Tells qs (.atOffset body e.offset)) ∧
      (e.offset < body.length → Document.parse (body ++ 0x0A :: x) = .error e) := by
  have hcommits : Commits x (.ofBody body) (document (.ofBody body))
      (document (.ofBody (body ++ 0x0A :: x))) := document_commits _
  unfold Document.parse at h ⊢
  generalize document (.ofBody body) = p, document (.ofBody (body ++ 0x0A :: x)) = p' at hcommits h
  cases hcommits with
  | matched _ _ _ => simp at h
  | @failed qs cause m _ hread htells hlast =>
    obtain rfl := Except.error.inj h
    obtain ⟨hle, hm⟩ := ((Cursor.reaches_skipTrivia _).trans hread.reaches).eq_atOffset
    have hskip : m.skipTrivia = (Cursor.atOffset body m.skipTrivia.offset).skipTrivia := by
      rw [← hm, Cursor.skipTrivia_skipTrivia]
    have hrest : m.skipTrivia.rest = body.drop m.skipTrivia.offset := congrArg Cursor.rest hm
    refine ⟨hle, ?_, ⟨qs, ?_, htells.congr hskip⟩, fun hlt => ?_⟩
    · rw [← hrest]
      exact m.not_startsTrivial_skipTrivia
    · have hread' := hread.append (.nil hskip)
      rwa [List.append_nil] at hread'
    · change m.skipTrivia.offset < body.length at hlt
      have hend : ¬ m.AtEnd := by
        rw [Cursor.AtEnd, hrest, List.drop_eq_nil_iff]
        omega
      rw [hlast hend]

theorem Source.parse_eq_error_iff {s : Source} {f : Fault} :
    s.parse = .error f ↔ ∃ e, Document.parse s.body = .error e ∧ f = .ofSyntaxError s e := by
  rw [Source.parse]
  cases Document.parse s.body <;> simp [eq_comm]

def foundAt (body : Bytes) (o : Nat) : Bytes :=
  match body.drop o with
  | [] => bytes "<EOF>"
  | s => Quoted.text (Character.encode (Character.first s).code)

theorem Quoted.head?_text (s : Bytes) : (Quoted.text s).head? = some 0x22 := by
  rw [Quoted.text, List.append_assoc, List.head?_append]
  rfl

theorem foundAt_eq_end_iff {o : Nat} (ho : o ≤ body.length) :
    foundAt body o = bytes "<EOF>" ↔ o = body.length := by
  have hend : o = body.length ↔ body.drop o = [] := by
    rw [List.drop_eq_nil_iff]
    omega
  rw [hend, foundAt]
  cases body.drop o with
  | nil => simp
  | cons b s =>
    simp only [reduceCtorEq, iff_false]
    intro h
    have hhead := congrArg List.head? h
    rw [Quoted.head?_text] at hhead
    exact absurd hhead (by decide)

/-- The constructs and tokens that a message names as expected. -/
def expectedLabels : List Bytes :=
  [bytes "name", bytes "Name", bytes "Type", bytes "type", bytes "Value", bytes "NamedType",
    bytes "ObjectTypeDefinition"] ++ marks.map Quoted.text

/-- The codes and messages with which a text is refused at an offset. -/
inductive Refusal (body : Bytes) (o : Nat) : (code message : Bytes) → Prop where
  | expected {label : Bytes} : label ∈ expectedLabels →
      Refusal body o (bytes "S0001")
        (bytes "Expected " ++ label ++ bytes " but got " ++ foundAt body o)
  | unexpectedCharacter : o < body.length →
      Refusal body o (bytes "S0002")
        (bytes "Unexpected character " ++ foundAt body o ++
          bytes ", expected comment or definition")
  /-- The last token in front of the parenthesis is the name of the field. -/
  | inputFieldArguments {qs : List Placed} {start : Nat} {field : Bytes} :
      Reading (.ofBody body) (qs ++ [⟨start, .word field⟩]) (.atOffset body o) →
      (body.drop o).head? = some 0x28 →
      Refusal body o (bytes "S0004")
        (bytes "Input field " ++ Quoted.text field ++ bytes " must not declare arguments")
  | invalidNumber {literal : Bytes} : IsNumber literal → literal <+: body.drop o →
      Refusal body o (bytes "S0005") (bytes "Invalid number " ++ literal)
  | invalidString {text : Bytes} : (∀ b ∈ text, b ≠ 0x0A) → quote text <+: body.drop o →
      Refusal body o (bytes "S0006") (bytes "Invalid string " ++ quote text)

theorem Refusal.code_mem {o : Nat} {code message : Bytes} (h : Refusal body o code message) :
    code ∈ [bytes "S0001", bytes "S0002", bytes "S0004", bytes "S0005", bytes "S0006"] := by
  cases h <;> decide

private theorem label_mem (construct : Construct) : construct.label ∈ expectedLabels := by
  apply List.mem_append_left
  cases construct <;> decide

theorem Grammar.Cause.Tells.refusal {o : Nat} {qs : List Placed} {cause : Cause}
    (h : cause.Tells qs (.atOffset body o)) (ho : ¬ StartsTrivial (body.drop o))
    (hread : Reading (.ofBody body) qs (.atOffset body o)) :
    Refusal body o cause.code cause.message := by
  have hskip : (Cursor.atOffset body o).skipTrivia = .atOffset body o :=
    Cursor.skipTrivia_of_not_startsTrivial ho
  have hfound : (Cursor.atOffset body o).found.text = foundAt body o := by
    rw [Cursor.found, hskip, foundAt, Cursor.atOffset]
    cases body.drop o <;> rfl
  cases cause with
  | missing construct found =>
    obtain rfl : found = _ := h
    change Refusal body o _
      (bytes "Expected " ++ construct.label ++ bytes " but got " ++ Found.text _)
    rw [hfound]
    exact .expected (label_mem construct)
  | missingToken token found =>
    obtain ⟨htoken, rfl⟩ := h
    change Refusal body o _
      (bytes "Expected " ++ Quoted.text token ++ bytes " but got " ++ Found.text _)
    rw [hfound]
    exact .expected (List.mem_append_right _ (List.mem_map_of_mem htoken))
  | unexpectedCharacter found =>
    obtain ⟨rfl, hend⟩ := h
    rw [Cause.message, hfound]
    refine .unexpectedCharacter (Nat.lt_of_not_le fun hle => hend ?_)
    rw [Cursor.AtEnd, hskip]
    exact List.drop_eq_nil_iff.mpr hle
  | unexpectedNode kind => exact h.elim
  | inputFieldArguments field =>
    obtain ⟨⟨p, hp, hword⟩, s, hs⟩ := h
    obtain ⟨ps, rfl⟩ := List.getLast?_eq_some_iff.mp hp
    obtain ⟨start, token⟩ := p
    obtain rfl : token = _ := hword
    rw [hskip] at hs
    exact .inputFieldArguments hread (by rw [show body.drop o = _ from hs]; rfl)
  | invalidNumber literal =>
    rw [Cause.Tells, hskip] at h
    exact .invalidNumber h.1 h.2
  | invalidString literal =>
    rw [Cause.Tells, hskip] at h
    obtain ⟨⟨v, rfl, hv⟩, hprefix⟩ := h
    exact .invalidString hv hprefix

/-- A source that does not parse is refused at an offset of its text where no trivia stands, and
the code, the message, the line and the column of the fault belong to this offset. -/
theorem Source.refusal_of_parse {s : Source} {f : Fault} (h : s.parse = .error f) :
    ∃ o : Nat, o ≤ s.body.length ∧ ¬ StartsTrivial (s.body.drop o) ∧
      f.place = ⟨s.name, o, (s.position o).line, (s.position o).column⟩ ∧
      Refusal s.body o f.code f.message ∧
      f.code ∈ [bytes "S0001", bytes "S0002", bytes "S0004", bytes "S0005", bytes "S0006"] ∧
      (foundAt s.body o = bytes "<EOF>" ↔ o = s.body.length) := by
  obtain ⟨e, he, rfl⟩ := Source.parse_eq_error_iff.mp h
  obtain ⟨hle, htrivia, ⟨qs, hread, htells⟩, -⟩ := Document.exists_of_error he []
  have hrefusal := htells.refusal htrivia hread
  exact ⟨e.offset, hle, htrivia, rfl, hrefusal, hrefusal.code_mem, foundAt_eq_end_iff hle⟩

/-- An input field with arguments, whose parenthesis stands behind a comma and a line feed. -/
def refusedSource : Source := ⟨bytes "sample", bytes "input A \x7b a,\n(b: C): D \x7d"⟩

theorem refusedSource_refusal :
    ∃ f, refusedSource.parse = .error f ∧ ∃ o : Nat, o ≤ refusedSource.body.length ∧
      ¬ StartsTrivial (refusedSource.body.drop o) ∧
      f.place = ⟨refusedSource.name, o, (refusedSource.position o).line,
        (refusedSource.position o).column⟩ ∧
      Refusal refusedSource.body o f.code f.message ∧
      f.code ∈ [bytes "S0001", bytes "S0002", bytes "S0004", bytes "S0005", bytes "S0006"] ∧
      (foundAt refusedSource.body o = bytes "<EOF>" ↔ o = refusedSource.body.length) := by
  obtain ⟨f, h⟩ : ∃ f, refusedSource.parse = .error f := ⟨_, rfl⟩
  exact ⟨f, h, Source.refusal_of_parse h⟩

/-- The position of an offset depends on the text in front of it only. -/
theorem Source.position_append {name x : Bytes} {o : Nat} (ho : o ≤ body.length) :
    (Source.mk name (body ++ x)).position o = (Source.mk name body).position o := by
  simp only [Source.position, Int.toNat_natCast, List.take_append_of_le_length ho]

/-- A fault in front of the end of a text is final: whatever lines are added to the text, it is
refused with the same fault. -/
theorem Source.parse_eq_error_append_line {name : Bytes} {f : Fault}
    (h : (Source.mk name body).parse = .error f) (hlt : f.place.offset < body.length) (x : Bytes) :
    (Source.mk name (body ++ 0x0A :: x)).parse = .error f := by
  obtain ⟨e, he, rfl⟩ := Source.parse_eq_error_iff.mp h
  obtain ⟨hle, -, -, hlast⟩ := Document.exists_of_error he x
  have he' := hlast (by simpa [Fault.ofSyntaxError, Fault.new, Place.ofOffset] using hlt)
  refine Source.parse_eq_error_iff.mpr ⟨e, he', ?_⟩
  simp only [Fault.ofSyntaxError, Fault.new, Place.ofOffset, Source.position_append hle]

theorem refusedSource_append_line :
    ∃ f, refusedSource.parse = .error f ∧ f.place.offset < refusedSource.body.length ∧
      (Source.mk refusedSource.name (refusedSource.body ++ 0x0A :: bytes "scalar B")).parse =
        .error f := by
  obtain ⟨f, h, hlt⟩ : ∃ f, refusedSource.parse = .error f ∧
      f.place.offset < refusedSource.body.length := ⟨_, rfl, by decide⟩
  exact ⟨f, h, hlt, Source.parse_eq_error_append_line h hlt (bytes "scalar B")⟩

/-- At the end of a text a failure can be repaired by a further line. -/
example : (∃ f, (Source.mk [] (bytes "scalar")).parse = .error f) ∧
    ∃ doc, (Source.mk [] (bytes "scalar\nA")).parse = .ok doc :=
  ⟨⟨_, rfl⟩, _, rfl⟩

end SchemaDoc
