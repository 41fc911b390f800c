import SchemaDoc.Proofs.Failures.Basic
import SchemaDoc.Proofs.Soundness.Definitions

/-! # The rules in a longer text

Every rule of the grammar either commits at once or tries its first token. The
statements are put together from those about the combinators, in the order of
the rules; the fuel of the longer text is more, which makes no difference as long
as the fuel of the shorter one is enough.
-/

namespace SchemaDoc.Grammar

variable {α : Type} {r : Bytes} {c : Cursor} {n n' : Nat}

theorem comment_tries (c : Cursor) : Tries r c (comment c) (comment (c.extend (0x0A :: r))) :=
  .positioned (lexeme_tries fun _ m hm =>
    .taken (Token.lexeme?_comment_eq_some_iff.mp hm) (.here _ m))

/-- An element of a list in which comments may stand. -/
private def element (item : Rule α) : Rule (Element Span α) := fun c =>
  (((comment c).map .comment).orElse fun _ => (item c).map .member).backTo c

private theorem manyWithin_succ (item : Rule α) (n : Nat) (c : Cursor) :
    manyWithin (fun found => .ok (.comment found)) item Element.member (n + 1) c =
      (optional (element item) c).andThen fun e next =>
        e.elim (.matched [] next) fun e =>
          (manyWithin (fun found => .ok (.comment found)) item .member n next).map (e :: ·) := by
  rw [manyWithin, optional, element]
  cases comment c with
  | matched a m => rfl
  | failed e => rfl
  | noMatch _ => cases item c <;> rfl

theorem manyWithin_commits {item item' : Rule α}
    (hitem : ∀ d, d.ahead ≤ c.ahead → Tries r d (item d) (item' (d.extend (0x0A :: r))))
    (hn : c.ahead < n) (hle : n ≤ n') :
    Commits r c (manyWithin (fun found => .ok (.comment found)) item Element.member n c)
      (manyWithin (fun found => .ok (.comment found)) item' .member n'
        (c.extend (0x0A :: r))) := by
  induction n generalizing c n' with
  | zero => omega
  | succ n ih =>
    obtain ⟨n', rfl⟩ : ∃ k, n' = k + 1 := ⟨n' - 1, by omega⟩
    have helement : Tries r c (element item c) (element item' (c.extend (0x0A :: r))) :=
      ((comment_tries c).map.orElse (hitem c (Nat.le_refl _)).map).backTo
    rw [manyWithin_succ, manyWithin_succ]
    apply helement.optional.andThen
    intro e m hm _ _
    rcases optional_eq_matched.mp hm with ⟨a, rfl, ha⟩ | ⟨rfl, -⟩
    · rw [ha] at helement
      have hlt := helement.ahead_lt
      have hrest := ih (c := m) (fun d hd => hitem d (by omega)) (by omega)
        (Nat.le_of_succ_le_succ hle)
      exact hrest.map
    · exact .here [] m

theorem many_commits {item item' : Rule α}
    (hitem : ∀ d, d.ahead ≤ c.ahead → Tries r d (item d) (item' (d.extend (0x0A :: r)))) :
    Commits r c (many item c) (many item' (c.extend (0x0A :: r))) := by
  apply manyWithin_commits hitem
  · have := c.ahead_le
    omega
  · simp [Cursor.extend]

/-- The elements behind an opening token and the closing one. -/
theorem closed_commits {β : Type} {item item' : Rule α} {closing : Bytes}
    (hclosing : closing ∈ marks) (g : List (Element Span α) → β)
    (hitem : ∀ d, d.ahead ≤ c.ahead → Tries r d (item d) (item' (d.extend (0x0A :: r)))) :
    Commits r c
      ((many item c).andThen fun es next => (expect closing next).map fun _ => g es)
      ((many item' (c.extend (0x0A :: r))).andThen fun es next =>
        (expect closing next).map fun _ => g es) := by
  apply (many_commits hitem).andThen
  intro es m _ _ _
  exact (expect_commits hclosing m).map

theorem enclosed_commits {item : Rule α} {opening closing : Bytes} (hopening : opening ∈ marks)
    (hclosing : closing ∈ marks)
    (hitem : ∀ d, Tries r d (item d) (item (d.extend (0x0A :: r)))) (c : Cursor) :
    Commits r c (enclosed opening closing item c)
      (enclosed opening closing item (c.extend (0x0A :: r))) := by
  apply (expect_commits hopening c).andThen
  intro _ m _ _ _
  exact closed_commits hclosing id fun d _ => hitem d

theorem block_commits {item : Rule α}
    (hitem : ∀ d, Tries r d (item d) (item (d.extend (0x0A :: r)))) (c : Cursor) :
    Commits r c (block item c) (block item (c.extend (0x0A :: r))) :=
  enclosed_commits (by decide) (by decide) hitem c

theorem memberName_tries (c : Cursor) :
    Tries r c (memberName c) (memberName (c.extend (0x0A :: r))) :=
  .positioned (lexeme_tries fun _ m hm =>
    .taken (Token.lexeme?_name_eq_some_iff.mp hm) (.here _ m))

theorem name_tries (c : Cursor) : Tries r c (name c) (name (c.extend (0x0A :: r))) := by
  refine .positioned (lexeme_tries fun t m hm => ?_)
  cases isReserved t with
  | true => exact .noMatch fun _ => rfl
  | false => exact .taken (Token.lexeme?_name_eq_some_iff.mp hm) (.here _ m)

theorem namedType_tries (c : Cursor) :
    Tries r c (namedType c) (namedType (c.extend (0x0A :: r))) :=
  .positioned (name_tries _).map

theorem listTypeOf_tries {inner inner' : Rule (TypeRef Span)}
    (hinner : ∀ d, d.ahead < c.ahead → Tries r d (inner d) (inner' (d.extend (0x0A :: r)))) :
    Tries r c (listTypeOf inner c) (listTypeOf inner' (c.extend (0x0A :: r))) := by
  refine .positioned (literal_tries (by decide) fun m hm => ?_)
  rw [Cursor.ahead_skipTrivia] at hm
  apply ((hinner m hm).require .innerType).andThen
  intro t m _ _ _
  exact (expect_commits (by decide) m).map

/-- The exclamation mark behind a type is taken or the type stands as it is. -/
private theorem nonNull_commits (t : TypeRef Span) (c : Cursor) :
    Commits r c
      (match c.literal? (bytes "!") with
        | some next => .matched (fun loc => .nonNull loc t) next
        | none => .matched (fun _ => t) c : Outcome (Span → TypeRef Span))
      (match (c.extend (0x0A :: r)).literal? (bytes "!") with
        | some next => .matched (fun loc => .nonNull loc t) next
        | none => .matched (fun _ => t) (c.extend (0x0A :: r))) := by
  have hmark : bytes "!" ∈ marks := by decide
  rcases c.literal?_lines hmark r with ⟨m, hread, hm, hm'⟩ | ⟨hnone, hnone'⟩
  · rw [hm, hm']
    exact .after (.here _ m) hread.reading hread.reaches
  · rw [hnone]
    apply (Commits.here _ c).congr
    intro hc
    rw [hnone' hc]

theorem typeReferenceWithin_tries (hn : c.ahead < n) (hle : n ≤ n') :
    Tries r c (typeReferenceWithin n c) (typeReferenceWithin n' (c.extend (0x0A :: r))) := by
  induction n generalizing c n' with
  | zero => omega
  | succ n ih =>
    obtain ⟨n', rfl⟩ : ∃ k, n' = k + 1 := ⟨n' - 1, by omega⟩
    have hlist : Tries r c.skipTrivia (listTypeOf (typeReferenceWithin n) c.skipTrivia)
        (listTypeOf (typeReferenceWithin n') (c.skipTrivia.extend (0x0A :: r))) := by
      refine listTypeOf_tries fun d hd => ih ?_ (Nat.le_of_succ_le_succ hle)
      rw [Cursor.ahead_skipTrivia] at hd
      omega
    refine .positioned (((namedType_tries _).map.orElse hlist).andThen ?_)
    intro t m _ _ _
    exact nonNull_commits t m

theorem typeReference_tries (c : Cursor) :
    Tries r c (typeReference c) (typeReference (c.extend (0x0A :: r))) := by
  apply typeReferenceWithin_tries
  · have := c.ahead_le
    omega
  · simp [Cursor.extend]

theorem variableValue_tries (c : Cursor) :
    Tries r c (variableValue c) (variableValue (c.extend (0x0A :: r))) := by
  refine .positioned (literal_tries (by decide) fun m _ => ?_)
  exact ((name_tries m).require .definitionName).map

theorem numberValue_tries (c : Cursor) :
    Tries r c (numberValue c) (numberValue (c.extend (0x0A :: r))) := by
  refine .positioned ?_
  rcases c.skipTrivia.lexeme?_lines .number r with ⟨literal, m, hm, hm'⟩ | ⟨hnone, hnone'⟩
  · have hread := Token.lexeme?_number_eq_some_iff.mp hm
    have htells : (Cause.invalidNumber literal).Tells [] c.skipTrivia :=
      ⟨hread.2.proper, m.rest, hread.1.1.symm⟩
    rw [hm, hm']
    dsimp only
    cases Decimal.ofLiteral? literal with
    | none => exact .refused htells
    | some exact => exact .taken hread (.here _ m)
  · rw [hnone]
    refine .noMatch fun hc => ?_
    rw [hnone' hc]

theorem stringValue_tries (c : Cursor) :
    Tries r c (stringValue c) (stringValue (c.extend (0x0A :: r))) := by
  refine .positioned ?_
  rcases c.skipTrivia.lexeme?_lines .string r with ⟨literal, m, hm, hm'⟩ | ⟨hnone, hnone'⟩
  · obtain ⟨v, rfl, hread⟩ := Token.lexeme?_string_eq_some_iff.mp hm
    have htells : (Cause.invalidString (quote v)).Tells [] c.skipTrivia :=
      ⟨⟨v, rfl, hread.2⟩, m.rest, hread.1.1.symm⟩
    rw [hm, hm']
    dsimp only
    split
    · exact .refused htells
    · exact .taken hread (.here _ m)
  · rw [hnone]
    refine .noMatch fun hc => ?_
    rw [hnone' hc]

theorem booleanValue_tries (c : Cursor) :
    Tries r c (booleanValue c) (booleanValue (c.extend (0x0A :: r))) := by
  refine .positioned ?_
  have htrue : IsIdentifier (bytes "true") := by decide
  have hfalse : IsIdentifier (bytes "false") := by decide
  rcases c.skipTrivia.keyword?_lines htrue r with ⟨m, hread, hm, hm'⟩ | ⟨hnone, hnone'⟩
  · rw [hm, hm']
    exact .taken hread (.here _ m)
  rw [hnone]
  rcases c.skipTrivia.keyword?_lines hfalse r with ⟨m, hread, hm, hm'⟩ | ⟨hnone₂, hnone₂'⟩
  · rw [hm, hnone' hread.not_atEnd, hm']
    exact .taken hread (.here _ m)
  · rw [hnone₂]
    refine .noMatch fun hc => ?_
    rw [hnone' hc, hnone₂' hc]

theorem enumValue_tries (c : Cursor) :
    Tries r c (enumValue c) (enumValue (c.extend (0x0A :: r))) :=
  .positioned (name_tries _).map

section Nested

variable {item item' : Rule (Value Span)}

theorem listValueOf_tries
    (hitem : ∀ d, d.ahead < c.ahead → Tries r d (item d) (item' (d.extend (0x0A :: r)))) :
    Tries r c (listValueOf item c) (listValueOf item' (c.extend (0x0A :: r))) := by
  refine .positioned (literal_tries (by decide) fun m hm => ?_)
  rw [Cursor.ahead_skipTrivia] at hm
  exact closed_commits (by decide) (fun es loc => Value.list loc es) fun d hd => hitem d (by omega)

theorem objectFieldOf_tries
    (hitem : ∀ d, d.ahead < c.ahead → Tries r d (item d) (item' (d.extend (0x0A :: r)))) :
    Tries r c (objectFieldOf item c) (objectFieldOf item' (c.extend (0x0A :: r))) := by
  refine .positioned ((memberName_tries _).andThen ?_)
  intro x m _ _ hm
  rw [Cursor.ahead_skipTrivia] at hm
  apply (expect_commits (by decide) m).andThen
  intro _ m' _ _ hm'
  exact ((hitem m' (by omega)).require .value).map

theorem objectValueOf_tries
    (hitem : ∀ d, d.ahead < c.ahead → Tries r d (item d) (item' (d.extend (0x0A :: r)))) :
    Tries r c (objectValueOf item c) (objectValueOf item' (c.extend (0x0A :: r))) := by
  refine .positioned (literal_tries (by decide) fun m hm => ?_)
  rw [Cursor.ahead_skipTrivia] at hm
  refine closed_commits (by decide) (fun fields loc => Value.object loc fields) fun d hd => ?_
  exact objectFieldOf_tries fun e he => hitem e (by omega)

end Nested

theorem valueWithin_tries {k : Constancy} (hn : c.ahead < n) (hle : n ≤ n') :
    Tries r c (valueWithin k n c) (valueWithin k n' (c.extend (0x0A :: r))) := by
  induction n generalizing c n' with
  | zero => omega
  | succ n ih =>
    obtain ⟨n', rfl⟩ : ∃ l, n' = l + 1 := ⟨n' - 1, by omega⟩
    have hitem (d : Cursor) (hd : d.ahead < c.ahead) :
        Tries r d (valueWithin k n d) (valueWithin k n' (d.extend (0x0A :: r))) :=
      ih (by omega) (Nat.le_of_succ_le_succ hle)
    have hvariable : Tries r c (variableWhere k c) (variableWhere k (c.extend (0x0A :: r))) := by
      cases k with
      | constant => exact .noMatch fun _ => rfl
      | «variable» => exact variableValue_tries c
    exact hvariable.orElse <| (numberValue_tries c).orElse <| (stringValue_tries c).orElse <|
      (booleanValue_tries c).orElse <| (enumValue_tries c).orElse <|
      (listValueOf_tries hitem).orElse (objectValueOf_tries hitem)

theorem value_tries (k : Constancy) (c : Cursor) :
    Tries r c (value k c) (value k (c.extend (0x0A :: r))) := by
  apply valueWithin_tries
  · have := c.ahead_le
    omega
  · simp [Cursor.extend]

theorem defaultValue_tries (c : Cursor) :
    Tries r c (defaultValue c) (defaultValue (c.extend (0x0A :: r))) :=
  literal_tries (by decide) fun m _ => (value_tries .constant m).require .value

theorem memberType_commits (c : Cursor) :
    Commits r c (memberType c) (memberType (c.extend (0x0A :: r))) := by
  apply (expect_commits (by decide) c).andThen
  intro _ m _ _ _
  exact (typeReference_tries m).require .memberType

theorem inputValueRest_commits (x : Name Span) (c : Cursor) :
    Commits r c (inputValueRest x c) (inputValueRest x (c.extend (0x0A :: r))) := by
  apply (memberType_commits c).andThen
  intro t m _ _ _
  exact (defaultValue_tries m).optional.map

theorem inputValueDefinition_tries (c : Cursor) :
    Tries r c (inputValueDefinition c) (inputValueDefinition (c.extend (0x0A :: r))) :=
  .positioned ((memberName_tries _).andThen fun x m _ _ _ => inputValueRest_commits x m)

private theorem reading_of_memberName {x : Name Span} {m : Cursor}
    (h : memberName c = .matched x m) : Reading c [⟨c.skipTrivia.offset, .word x.text⟩] m := by
  obtain ⟨-, -, hparts⟩ := Written.single_iff.mp (memberName_covers (k := .constant) h).2
  obtain ⟨d, hread, hd⟩ := Written.token_iff.mp hparts
  exact .cons hread (.nil (Written.nil_iff.mp hd))

/-- A parenthesis behind the name of an input field is a failure that names the field, which is
the last token in front of it. -/
theorem inputFieldDefinition_tries (c : Cursor) :
    Tries r c (inputFieldDefinition c) (inputFieldDefinition (c.extend (0x0A :: r))) := by
  refine .positioned ?_
  have hname : Tries r c.skipTrivia (memberName c.skipTrivia) _ := memberName_tries _
  have hmark : bytes "(" ∈ marks := by decide
  by_cases hparen : ∃ x m d, memberName c.skipTrivia = .matched x m ∧
      (Token.mark (bytes "(")).Reads m d
  · obtain ⟨x, m, d, hx, hd⟩ := hparen
    rw [hx] at hname
    rcases m.literal?_lines hmark r with ⟨e, hread, he, he'⟩ | ⟨hnone, -⟩
    · have htells : (Cause.inputFieldArguments x.text).Tells
          [⟨c.skipTrivia.skipTrivia.offset, .word x.text⟩] m := ⟨⟨_, rfl, rfl⟩, e.rest, hread.1.1⟩
      rw [hname.eq_of_matched hd.not_atEnd, hx]
      simp only [Outcome.andThen, he, he']
      refine .commits (.failed (reading_of_memberName hx) htells fun hm => ?_)
        (by simp [Cursor.fail])
      rw [Cursor.fail, Cursor.skipTrivia_extend_line hm]
      rfl
    · simp [(Token.literal?_eq_some_iff hmark).mpr hd] at hnone
  · apply hname.andThen
    intro x m hx _ _
    rcases m.literal?_lines hmark r with ⟨d, hread, -, -⟩ | ⟨hnone, hnone'⟩
    · exact absurd ⟨x, m, d, hx, hread⟩ hparen
    · rw [hnone]
      apply (inputValueRest_commits x m).congr
      intro hm
      rw [hnone' hm]

theorem argumentsDefinition_tries (c : Cursor) :
    Tries r c (argumentsDefinition c) (argumentsDefinition (c.extend (0x0A :: r))) := by
  have hmark : bytes "(" ∈ marks := by decide
  rw [argumentsDefinition, argumentsDefinition]
  rcases c.literal?_lines hmark r with ⟨m, hread, hm, hm'⟩ | ⟨hnone, hnone'⟩
  · simp only [hm, hm', enclosed, expect, Outcome.andThen]
    exact .taken hread (closed_commits (by decide) id fun d _ => inputValueDefinition_tries d)
  · rw [hnone]
    refine .noMatch fun hc => ?_
    rw [hnone' hc]

theorem fieldDefinition_tries (c : Cursor) :
    Tries r c (fieldDefinition c) (fieldDefinition (c.extend (0x0A :: r))) := by
  refine .positioned ((memberName_tries _).andThen ?_)
  intro x m _ _ _
  apply (argumentsDefinition_tries m).optional.andThen
  intro arguments m' _ _ _
  exact (memberType_commits m').map

theorem enumValueDefinition_tries (c : Cursor) :
    Tries r c (enumValueDefinition c) (enumValueDefinition (c.extend (0x0A :: r))) :=
  .positioned (name_tries _).map

theorem definitionName_commits (c : Cursor) :
    Commits r c (definitionName c) (definitionName (c.extend (0x0A :: r))) :=
  (name_tries c).require .definitionName

theorem implementsInterfaces_tries (c : Cursor) :
    Tries r c (implementsInterfaces c) (implementsInterfaces (c.extend (0x0A :: r))) := by
  refine afterKeyword_tries (by decide) (fun m => ?_) c
  apply (many_commits fun d _ => namedType_tries d).andThen
  intro es m' _ _ _
  exact .skipped es m'

theorem objectTypeDefinition_tries (c : Cursor) :
    Tries r c (objectTypeDefinition c) (objectTypeDefinition (c.extend (0x0A :: r))) := by
  refine .positioned (afterKeyword_tries (by decide) (fun m => ?_) _)
  apply ((name_tries m).require .objectName).andThen
  intro x m _ _ _
  apply (implementsInterfaces_tries m).optional.andThen
  intro interfaces m _ _ _
  exact (block_commits fieldDefinition_tries m).map

/-- A definition that is a keyword, a name and a block. -/
theorem blockDefinition_tries {word : Bytes} (hword : IsIdentifier word) {item : Rule α}
    (make : Span → Name Span → List (Element Span α) → Definition Span)
    (hitem : ∀ d, Tries r d (item d) (item (d.extend (0x0A :: r)))) (c : Cursor) :
    let rule := positioned <| afterKeyword word fun c =>
      (definitionName c).andThen fun x next =>
        (block item next).map fun xs loc => make loc x xs
    Tries r c (rule c) (rule (c.extend (0x0A :: r))) := by
  refine .positioned (afterKeyword_tries hword (fun m => ?_) _)
  apply (definitionName_commits m).andThen
  intro x m _ _ _
  exact (block_commits hitem m).map

theorem unionMember_commits (c : Cursor) :
    Commits r c (unionMember c) (unionMember (c.extend (0x0A :: r))) :=
  (namedType_tries c).require .unionMember

theorem unionMembersWithin_commits (hn : c.ahead < n) (hle : n ≤ n') :
    Commits r c (unionMembersWithin n c) (unionMembersWithin n' (c.extend (0x0A :: r))) := by
  induction n generalizing c n' with
  | zero => omega
  | succ n ih =>
    obtain ⟨n', rfl⟩ : ∃ k, n' = k + 1 := ⟨n' - 1, by omega⟩
    have hmark : bytes "|" ∈ marks := by decide
    rw [unionMembersWithin, unionMembersWithin]
    rcases c.literal?_lines hmark r with ⟨m, hread, hm, hm'⟩ | ⟨hnone, hnone'⟩
    · rw [hm, hm']
      have hlt := hread.ahead_lt
      apply Commits.after _ hread.reading hread.reaches
      apply (unionMember_commits m).andThen
      intro t d _ _ hd
      exact (ih (by omega) (Nat.le_of_succ_le_succ hle)).map
    · rw [hnone]
      apply (Commits.here [] c).congr
      intro hc
      rw [hnone' hc]

theorem unionTypeDefinition_tries (c : Cursor) :
    Tries r c (unionTypeDefinition c) (unionTypeDefinition (c.extend (0x0A :: r))) := by
  refine .positioned (afterKeyword_tries (by decide) (fun m => ?_) _)
  apply (definitionName_commits m).andThen
  intro x m _ _ _
  apply (expect_commits (by decide) m).andThen
  intro _ m _ _ _
  apply (unionMember_commits m).andThen
  intro t m _ _ _
  refine (unionMembersWithin_commits ?_ ?_).map
  · have := m.ahead_le
    omega
  · simp [Cursor.extend]

theorem scalarTypeDefinition_tries (c : Cursor) :
    Tries r c (scalarTypeDefinition c) (scalarTypeDefinition (c.extend (0x0A :: r))) :=
  .positioned (afterKeyword_tries (by decide) (fun m => (definitionName_commits m).map) _)

theorem typeExtensionDefinition_tries (c : Cursor) :
    Tries r c (typeExtensionDefinition c) (typeExtensionDefinition (c.extend (0x0A :: r))) :=
  .positioned (afterKeyword_tries (by decide)
    (fun m => ((objectTypeDefinition_tries m).require .objectDefinition).map) _)

theorem definition_tries (c : Cursor) :
    Tries r c (definition c) (definition (c.extend (0x0A :: r))) := by
  have hinterface : Tries r c (interfaceTypeDefinition c) _ :=
    blockDefinition_tries (by decide) .interface fieldDefinition_tries c
  have henum : Tries r c (enumTypeDefinition c) _ :=
    blockDefinition_tries (by decide) .enum enumValueDefinition_tries c
  have hinput : Tries r c (inputObjectTypeDefinition c) _ :=
    blockDefinition_tries (by decide) .input inputFieldDefinition_tries c
  exact (objectTypeDefinition_tries c).map.orElse <| hinterface.orElse <|
    (unionTypeDefinition_tries c).orElse <| (scalarTypeDefinition_tries c).orElse <|
    henum.orElse <| hinput.orElse (typeExtensionDefinition_tries c)

/-- A document commits: what is neither comment nor definition is a failure. -/
theorem document_commits (c : Cursor) :
    Commits r c (document c) (document (c.extend (0x0A :: r))) := by
  refine .positioned ((many_commits fun d _ => definition_tries d).andThen ?_)
  intro definitions m _ _ _
  by_cases hend : m.AtEnd
  · have hisEnd : m.skipTrivia.isEnd = true := List.isEmpty_iff.mpr hend
    rw [if_pos hisEnd]
    exact (Commits.here _ m).congr fun hm => absurd hend hm
  · have hisEnd : ¬ m.skipTrivia.isEnd = true := fun h => hend (List.isEmpty_iff.mp h)
    have hisEnd' : ¬ (m.extend (0x0A :: r)).skipTrivia.isEnd = true := by
      rw [Cursor.skipTrivia_extend_line hend]
      simp [Cursor.isEnd, Cursor.extend]
    have htells : (Cause.unexpectedCharacter m.found).Tells [] m := ⟨rfl, hend⟩
    rw [if_neg hisEnd, if_neg hisEnd', Cursor.found_extend_line hend]
    exact .fail htells

end SchemaDoc.Grammar
