import SchemaDoc.Grammar.Definitions
import SchemaDoc.Proofs.Syntax.Map

/-! # Moving a text

A rule sees the offset of its cursor only to compute other offsets from it. So
when the same text stands further behind, a rule has the same outcome there, with
every span and every place of a failure moved by the same number.
-/

namespace SchemaDoc.Grammar

variable {α β γ δ : Type} {n : Nat} {R : α → β → Prop} {S : γ → δ → Prop} {c : Cursor}

def Cursor.move (n : Nat) (c : Cursor) : Cursor := ⟨c.offset + n, c.rest⟩

/-- The second outcome is the first one moved by `n`, when `R` relates what they yield. -/
inductive Moved (n : Nat) (R : α → β → Prop) : Outcome α → Outcome β → Prop where
  | matched {a : α} {b : β} (m : Cursor) :
      R a b → Moved n R (.matched a m) (.matched b (m.move n))
  | noMatch (back : Cursor) : Moved n R (.noMatch back) (.noMatch (back.move n))
  | failed (offset : Nat) (cause : Cause) :
      Moved n R (.failed ⟨offset, cause⟩) (.failed ⟨offset + n, cause⟩)

/-- The rule yields what `f` makes of its results when the cursor is moved by `n`. -/
def Moves (n : Nat) (f : α → α) (rule : Rule α) : Prop :=
  ∀ c, Moved n (fun a b => f a = b) (rule c) (rule (c.move n))

namespace Cursor

theorem skipTrivia_move (n : Nat) (c : Cursor) :
    (c.move n).skipTrivia = c.skipTrivia.move n := by
  simp only [skipTrivia, advance, move, Nat.add_right_comm]

theorem literal?_move (n : Nat) (t : Bytes) (c : Cursor) :
    (c.move n).literal? t = (c.literal? t).map (move n) := by
  simp only [literal?, skipTrivia_move]
  cases h : Bytes.startsWith t c.skipTrivia.rest with
  | true => simp [move, h, advance, Nat.add_right_comm]
  | false => simp [move, h]

theorem keyword?_move (n : Nat) (t : Bytes) (c : Cursor) :
    (c.move n).keyword? t = (c.keyword? t).map (move n) := by
  simp only [keyword?, literal?_move]
  cases c.literal? t with
  | none => rfl
  | some d =>
    obtain ⟨o, rest⟩ := d
    cases rest with
    | nil => rfl
    | cons b s => cases h : isNameContinue b <;> simp [move, h]

theorem lexeme?_move (n : Nat) (l : Lexeme) (c : Cursor) :
    (c.move n).lexeme? l = (c.lexeme? l).map fun read => (read.1, read.2.move n) := by
  simp only [lexeme?, skipTrivia_move, Option.map_map]
  change Option.map _ (l.length? c.skipTrivia.rest) = _
  congr 1
  funext k
  simp [move, advance, Nat.add_right_comm]

theorem found_move (n : Nat) (c : Cursor) : (c.move n).found = c.found := by
  rw [found, found, skipTrivia_move]
  rfl

theorem fail_moved (c : Cursor) (cause : Cause) :
    Moved n R (c.fail cause) ((c.move n).fail cause) := by
  rw [fail, fail, skipTrivia_move]
  exact .failed _ cause

end Cursor

namespace Moved

variable {o : Outcome α} {o' : Outcome β}

theorem andThen {f : α → Cursor → Outcome γ} {f' : β → Cursor → Outcome δ} (h : Moved n R o o')
    (hf : ∀ a b m, R a b → Moved n S (f a m) (f' b (m.move n))) :
    Moved n S (o.andThen f) (o'.andThen f') := by
  cases h with
  | matched m hR => exact hf _ _ m hR
  | noMatch back => exact .noMatch back
  | failed offset cause => exact .failed offset cause

theorem map {f : α → γ} {f' : β → δ} (h : Moved n R o o') (hf : ∀ a b, R a b → S (f a) (f' b)) :
    Moved n S (o.map f) (o'.map f') := by
  apply h.andThen
  intro a b m hR
  exact .matched m (hf a b hR)

theorem orElse {p : Outcome α} {p' : Outcome β} (h : Moved n R o o') (hp : Moved n R p p') :
    Moved n R (o.orElse fun _ => p) (o'.orElse fun _ => p') := by
  cases h with
  | matched m hR => exact .matched m hR
  | noMatch _ => exact hp
  | failed offset cause => exact .failed offset cause

theorem backTo (h : Moved n R o o') (c : Cursor) :
    Moved n R (o.backTo c) (o'.backTo (c.move n)) := by
  cases h with
  | matched m hR => exact .matched m hR
  | noMatch _ => exact .noMatch c
  | failed offset cause => exact .failed offset cause

theorem require (h : Moved n R o o') (construct : Construct) :
    Moved n R (o.require construct) (o'.require construct) := by
  cases h with
  | matched m hR => exact .matched m hR
  | noMatch back =>
    simp only [Outcome.require, Cursor.found_move]
    exact back.fail_moved _
  | failed offset cause => exact .failed offset cause

end Moved

theorem Moves.orElse {f : α → α} {rule other : Rule α} (h : Moves n f rule)
    (ho : Moves n f other) : Moves n f fun c => (rule c).orElse fun _ => other c :=
  fun c => (h c).orElse (ho c)

theorem Moves.map {f : α → α} {f' : β → β} {rule : Rule α} {g : α → β} (h : Moves n f rule)
    (hg : ∀ a, f' (g a) = g (f a)) : Moves n f' fun c => (rule c).map g := by
  intro c
  apply (h c).map
  rintro a _ rfl
  exact hg a

theorem expect_moved (token : Bytes) (c : Cursor) :
    Moved n (fun _ _ => True) (expect token c) (expect token (c.move n)) := by
  simp only [expect, Cursor.literal?_move, Cursor.found_move]
  cases c.literal? token with
  | none => exact c.fail_moved _
  | some m => exact .matched m trivial

theorem optional_moves {rule : Rule α} {f : α → α} (h : Moves n f rule) :
    Moves n (Option.map f) (optional rule) := by
  intro c
  have hc := h c
  simp only [optional]
  generalize rule c = o, rule (c.move n) = o' at hc
  cases hc with
  | matched m hR => exact .matched m (congrArg some hR)
  | noMatch back => exact .matched back rfl
  | failed offset cause => exact .failed offset cause

theorem afterKeyword_moved {rule : Rule α} {rule' : Rule β} (word : Bytes)
    (h : ∀ c, Moved n R (rule c) (rule' (c.move n))) (c : Cursor) :
    Moved n R (afterKeyword word rule c) (afterKeyword word rule' (c.move n)) := by
  simp only [afterKeyword, Cursor.keyword?_move]
  cases c.keyword? word with
  | none => exact .noMatch c
  | some m => exact h m

/-- The span of a node is moved with it. -/
theorem positioned_moves {rule : Rule (Span → α)} {f : α → α}
    (h : ∀ c, Moved n (fun w w' => ∀ loc, f (w loc) = w' (loc.shift n)) (rule c)
      (rule (c.move n))) :
    Moves n f (positioned rule) := by
  intro c
  simp only [positioned, Cursor.skipTrivia_move]
  apply ((h c.skipTrivia).andThen _).backTo
  intro w w' m hw
  have htaken : (c.skipTrivia.move n).rest.take ((m.move n).offset - (c.skipTrivia.move n).offset) =
      c.skipTrivia.rest.take (m.offset - c.skipTrivia.offset) := by
    congr 1
    simp only [Cursor.move]
    omega
  have hloc (k : Nat) : Span.mk (c.skipTrivia.move n).offset ((c.skipTrivia.move n).offset + k) =
      (Span.mk c.skipTrivia.offset (c.skipTrivia.offset + k)).shift n := by
    simp only [Cursor.move, Span.shift, Nat.add_right_comm]
  rw [htaken, hloc, Cursor.skipTrivia_move]
  exact .matched _ (hw _)

theorem lexeme_moved {l : Lexeme} (c : Cursor) {f : Bytes → Cursor → Outcome α}
    {f' : Bytes → Cursor → Outcome β} (h : ∀ t m, Moved n R (f t m) (f' t (m.move n))) :
    Moved n R (match c.lexeme? l with | some (t, m) => f t m | none => .noMatch c)
      (match (c.move n).lexeme? l with | some (t, m) => f' t m | none => .noMatch (c.move n)) := by
  rw [Cursor.lexeme?_move]
  cases c.lexeme? l with
  | none => exact .noMatch c
  | some read => exact h read.1 read.2

theorem literal_moved {f : Cursor → Outcome α} {f' : Cursor → Outcome β} (token : Bytes)
    (h : ∀ m, Moved n R (f m) (f' (m.move n))) (c : Cursor) :
    Moved n R (match c.literal? token with | none => .noMatch c | some m => f m)
      (match (c.move n).literal? token with | none => .noMatch (c.move n) | some m => f' m) := by
  rw [Cursor.literal?_move]
  cases c.literal? token with
  | none => exact .noMatch c
  | some m => exact h m

theorem comment_moves : Moves n (Comment.map (Span.shift n)) comment :=
  positioned_moves fun c => lexeme_moved c fun _ m => .matched m fun _ => rfl

/-- A list is moved with its elements, whatever it makes of comments. -/
theorem manyWithin_moves {ε : Type} {onComment : OnComment ε} {item : Rule α} {wrap : α → ε}
    {f : α → α} {g : ε → ε} (h : Moves n f item)
    (hcomment : ∀ x, onComment (x.map (Span.shift n)) = (onComment x).map g)
    (hwrap : ∀ a, g (wrap a) = wrap (f a)) (fuel : Nat) :
    Moves n (List.map g) (manyWithin onComment item wrap fuel) := by
  induction fuel with
  | zero =>
    intro c
    exact .matched c rfl
  | succ fuel ih =>
    intro c
    have hmoved : Moved n _ (comment c) (comment (c.move n)) := comment_moves c
    have hitem := h c
    simp only [manyWithin]
    generalize comment c = o, comment (c.move n) = o' at hmoved
    cases hmoved with
    | @matched x _ m hR =>
      subst hR
      simp only [hcomment]
      cases onComment x with
      | error kind => exact c.fail_moved _
      | ok e =>
        apply (ih m).map
        rintro _ _ rfl
        rfl
    | failed offset cause => exact .failed offset cause
    | noMatch _ =>
      generalize item c = o, item (c.move n) = o' at hitem
      cases hitem with
      | matched m hR =>
        apply (ih m).map
        rintro _ _ rfl
        rw [List.map_cons, hwrap, hR]
      | failed offset cause => exact .failed offset cause
      | noMatch _ => exact .matched c rfl

theorem many_moves {item : Rule α} {f : α → α} (h : Moves n f item) :
    Moves n (List.map (Element.map (Span.shift n) f)) (many item) := by
  intro c
  refine manyWithin_moves h ?_ ?_ (c.rest.length + 1) c
  · exact fun _ => rfl
  · exact fun _ => rfl

theorem manyOnly_moves {item : Rule α} {f : α → α} (h : Moves n f item) :
    Moves n (List.map f) (manyOnly item) := by
  intro c
  refine manyWithin_moves h ?_ ?_ (c.rest.length + 1) c
  · exact fun _ => rfl
  · exact fun _ => rfl

theorem enclosed_moves {item : Rule α} {f : α → α} (h : Moves n f item) (opening closing : Bytes) :
    Moves n (List.map (Element.map (Span.shift n) f)) (enclosed opening closing item) := by
  intro c
  apply (expect_moved opening c).andThen
  intro _ _ m _
  apply (many_moves h m).andThen
  intro xs ys m hxs
  exact (expect_moved closing m).map fun _ _ _ => hxs

theorem memberName_moves : Moves n (Name.map (Span.shift n)) memberName :=
  positioned_moves fun c => lexeme_moved c fun _ m => .matched m fun _ => rfl

theorem name_moves : Moves n (Name.map (Span.shift n)) name := by
  refine positioned_moves fun c => lexeme_moved c fun t m => ?_
  cases h : isReserved t with
  | true => exact .noMatch c
  | false => exact .matched m fun _ => rfl

theorem namedType_moves : Moves n (NamedType.map (Span.shift n)) namedType := by
  refine positioned_moves fun c => (name_moves c).map ?_
  rintro x _ rfl loc
  rfl

theorem listTypeOf_moves {inner : Rule (TypeRef Span)}
    (h : Moves n (TypeRef.map (Span.shift n)) inner) :
    Moves n (TypeRef.map (Span.shift n)) (listTypeOf inner) := by
  refine positioned_moves (literal_moved (bytes "[") fun m => ?_)
  apply ((h m).require .innerType).andThen
  rintro x _ m rfl
  exact (expect_moved (bytes "]") m).map fun _ _ _ _ => rfl

theorem typeReferenceWithin_moves (fuel : Nat) :
    Moves n (TypeRef.map (Span.shift n)) (typeReferenceWithin fuel) := by
  induction fuel with
  | zero =>
    intro c
    exact .noMatch c
  | succ fuel ih =>
    refine positioned_moves fun c => ?_
    have hnamed : Moves n (TypeRef.map (Span.shift n)) fun c => (namedType c).map .named :=
      namedType_moves.map fun _ => rfl
    apply (hnamed.orElse (listTypeOf_moves ih) c).andThen
    rintro x _ m rfl
    simp only [Cursor.literal?_move]
    cases m.literal? (bytes "!") with
    | none => exact .matched m fun _ => rfl
    | some m' => exact .matched m' fun _ => rfl

theorem typeReference_moves : Moves n (TypeRef.map (Span.shift n)) typeReference :=
  fun c => typeReferenceWithin_moves (c.rest.length + 1) c

theorem variableValue_moves : Moves n (Value.map (Span.shift n)) variableValue := by
  refine positioned_moves (literal_moved (bytes "$") fun m => ?_)
  apply ((name_moves m).require .definitionName).map
  rintro x _ rfl loc
  rfl

theorem numberValue_moves : Moves n (Value.map (Span.shift n)) numberValue := by
  refine positioned_moves fun c => ?_
  simp only [Cursor.lexeme?_move]
  cases c.lexeme? .number with
  | none => exact .noMatch c
  | some read =>
    obtain ⟨literal, m⟩ := read
    simp only [Option.map_some]
    cases Decimal.ofLiteral? literal with
    | none => exact c.fail_moved _
    | some exact => exact .matched m fun _ => rfl

theorem stringValue_moves : Moves n (Value.map (Span.shift n)) stringValue := by
  refine positioned_moves fun c => ?_
  simp only [Cursor.lexeme?_move]
  cases c.lexeme? .string with
  | none => exact .noMatch c
  | some read =>
    obtain ⟨literal, m⟩ := read
    simp only [Option.map_some]
    by_cases h : literal.any (· < 0x20) = true
    · rw [if_pos h, if_pos h]
      exact c.fail_moved _
    · rw [if_neg h, if_neg h]
      exact .matched m fun _ => rfl

theorem booleanValue_moves : Moves n (Value.map (Span.shift n)) booleanValue := by
  refine positioned_moves fun c => ?_
  simp only [Cursor.keyword?_move]
  cases c.keyword? (bytes "true") with
  | some m => exact .matched m fun _ => rfl
  | none =>
    cases c.keyword? (bytes "false") with
    | some m => exact .matched m fun _ => rfl
    | none => exact .noMatch c

theorem enumValue_moves : Moves n (Value.map (Span.shift n)) enumValue := by
  refine positioned_moves fun c => (name_moves c).map ?_
  rintro x _ rfl loc
  rfl

section Nested

variable {item : Rule (Value Span)} (h : Moves n (Value.map (Span.shift n)) item)

include h

theorem listValueOf_moves : Moves n (Value.map (Span.shift n)) (listValueOf item) := by
  refine positioned_moves (literal_moved (bytes "[") fun m => ?_)
  apply (many_moves h m).andThen
  rintro xs _ m rfl
  apply (expect_moved (bytes "]") m).map
  intro _ _ _ loc
  rw [Value.map, Value.mapElements_eq]

theorem objectFieldOf_moves : Moves n (ObjectField.map (Span.shift n)) (objectFieldOf item) := by
  refine positioned_moves fun c => ?_
  apply (memberName_moves c).andThen
  rintro x _ m rfl
  apply (expect_moved (bytes ":") m).andThen
  intro _ _ m _
  apply ((h m).require .value).map
  rintro v _ rfl loc
  rfl

theorem objectValueOf_moves : Moves n (Value.map (Span.shift n)) (objectValueOf item) := by
  refine positioned_moves (literal_moved (bytes "\x7b") fun m => ?_)
  apply (many_moves (objectFieldOf_moves h) m).andThen
  rintro xs _ m rfl
  apply (expect_moved (bytes "\x7d") m).map
  intro _ _ _ loc
  rw [Value.map, Value.mapFields_eq]

end Nested

theorem valueWithin_moves (k : Constancy) (fuel : Nat) :
    Moves n (Value.map (Span.shift n)) (valueWithin k fuel) := by
  induction fuel with
  | zero =>
    intro c
    exact .noMatch c
  | succ fuel ih =>
    have hvariable : Moves n (Value.map (Span.shift n)) (variableWhere k) := by
      cases k
      · intro c
        exact .noMatch c
      · exact variableValue_moves
    exact hvariable.orElse <| numberValue_moves.orElse <| stringValue_moves.orElse <|
      booleanValue_moves.orElse <| enumValue_moves.orElse <|
      (listValueOf_moves ih).orElse <| objectValueOf_moves ih

theorem value_moves (k : Constancy) : Moves n (Value.map (Span.shift n)) (value k) :=
  fun c => valueWithin_moves k (c.rest.length + 1) c

theorem defaultValue_moves : Moves n (Value.map (Span.shift n)) defaultValue :=
  literal_moved (bytes "=") fun m => (value_moves .constant m).require .value

theorem memberType_moves : Moves n (TypeRef.map (Span.shift n)) memberType := by
  intro c
  apply (expect_moved (bytes ":") c).andThen
  intro _ _ m _
  exact (typeReference_moves m).require .memberType

theorem inputValueRest_moved (x : Name Span) (c : Cursor) :
    Moved n (fun w w' => ∀ loc, (w loc).map (Span.shift n) = w' (loc.shift n))
      (inputValueRest x c) (inputValueRest (x.map (Span.shift n)) (c.move n)) := by
  apply (memberType_moves c).andThen
  rintro t _ m rfl
  apply (optional_moves defaultValue_moves m).map
  rintro v _ rfl loc
  rfl

theorem inputValueDefinition_moves :
    Moves n (InputValue.map (Span.shift n)) inputValueDefinition := by
  refine positioned_moves fun c => ?_
  apply (memberName_moves c).andThen
  rintro x _ m rfl
  exact inputValueRest_moved x m

theorem inputFieldDefinition_moves :
    Moves n (InputValue.map (Span.shift n)) inputFieldDefinition := by
  refine positioned_moves fun c => ?_
  apply (memberName_moves c).andThen
  rintro x _ m rfl
  simp only [Cursor.literal?_move]
  cases m.literal? (bytes "(") with
  | some _ => exact m.fail_moved _
  | none => exact inputValueRest_moved x m

theorem argumentsDefinition_moves :
    Moves n (List.map (Element.map (Span.shift n) (InputValue.map (Span.shift n))))
      argumentsDefinition := by
  intro c
  simp only [argumentsDefinition, Cursor.literal?_move]
  cases c.literal? (bytes "(") with
  | none => exact .noMatch c
  | some m => exact enclosed_moves inputValueDefinition_moves (bytes "(") (bytes ")") c

theorem fieldDefinition_moves : Moves n (Field.map (Span.shift n)) fieldDefinition := by
  refine positioned_moves fun c => ?_
  apply (memberName_moves c).andThen
  rintro x _ m rfl
  apply (optional_moves argumentsDefinition_moves m).andThen
  rintro arguments _ m rfl
  apply (memberType_moves m).map
  rintro t _ rfl loc
  rfl

theorem enumValueDefinition_moves :
    Moves n (EnumMember.map (Span.shift n)) enumValueDefinition := by
  refine positioned_moves fun c => (name_moves c).map ?_
  rintro x _ rfl loc
  rfl

theorem implementsInterfaces_moves :
    Moves n (List.map (Element.map (Span.shift n) (NamedType.map (Span.shift n))))
      implementsInterfaces := by
  refine afterKeyword_moved (bytes "implements") fun c => ?_
  apply (many_moves namedType_moves c).andThen
  intro xs ys m hxs
  rw [Cursor.skipTrivia_move]
  exact .matched m.skipTrivia hxs

theorem objectTypeDefinition_moves :
    Moves n (ObjectType.map (Span.shift n)) objectTypeDefinition := by
  refine positioned_moves (afterKeyword_moved (bytes "type") fun c => ?_)
  apply ((name_moves c).require .objectName).andThen
  rintro x _ m rfl
  apply (optional_moves implementsInterfaces_moves m).andThen
  rintro interfaces _ m rfl
  apply (enclosed_moves fieldDefinition_moves (bytes "\x7b") (bytes "\x7d") m).map
  rintro fields _ rfl loc
  cases interfaces <;> rfl

/-- A definition that is a keyword, a name and a block. -/
theorem blockDefinition_moves {item : Rule α} {f : α → α} (word : Bytes)
    (make : Span → Name Span → List (Element Span α) → Definition Span) (h : Moves n f item)
    (hmake : ∀ loc x xs, (make loc x xs).map (Span.shift n) =
      make (loc.shift n) (x.map (Span.shift n)) (xs.map (Element.map (Span.shift n) f))) :
    Moves n (Definition.map (Span.shift n)) (positioned <| afterKeyword word fun c =>
      (definitionName c).andThen fun x next =>
        (block item next).map fun xs loc => make loc x xs) := by
  refine positioned_moves (afterKeyword_moved word fun c => ?_)
  apply ((name_moves c).require .definitionName).andThen
  rintro x _ m rfl
  apply (enclosed_moves h (bytes "\x7b") (bytes "\x7d") m).map
  rintro xs _ rfl loc
  exact hmake loc x xs

theorem interfaceTypeDefinition_moves :
    Moves n (Definition.map (Span.shift n)) interfaceTypeDefinition :=
  blockDefinition_moves (bytes "interface") .interface fieldDefinition_moves fun _ _ _ => rfl

theorem enumTypeDefinition_moves :
    Moves n (Definition.map (Span.shift n)) enumTypeDefinition :=
  blockDefinition_moves (bytes "enum") .enum enumValueDefinition_moves fun _ _ _ => rfl

theorem inputObjectTypeDefinition_moves :
    Moves n (Definition.map (Span.shift n)) inputObjectTypeDefinition :=
  blockDefinition_moves (bytes "input") .input inputFieldDefinition_moves fun _ _ _ => rfl

theorem unionMembersWithin_moves (fuel : Nat) :
    Moves n (List.map (NamedType.map (Span.shift n))) (unionMembersWithin fuel) := by
  induction fuel with
  | zero =>
    intro c
    exact .matched c rfl
  | succ fuel ih =>
    intro c
    simp only [unionMembersWithin, Cursor.literal?_move]
    cases c.literal? (bytes "|") with
    | none => exact .matched c rfl
    | some m =>
      apply ((namedType_moves m).require .unionMember).andThen
      rintro t _ m rfl
      apply (ih m).map
      rintro ts _ rfl
      rfl

theorem unionTypeDefinition_moves :
    Moves n (Definition.map (Span.shift n)) unionTypeDefinition := by
  refine positioned_moves (afterKeyword_moved (bytes "union") fun c => ?_)
  apply ((name_moves c).require .definitionName).andThen
  rintro x _ m rfl
  apply (expect_moved (bytes "=") m).andThen
  intro _ _ m _
  apply ((namedType_moves m).require .unionMember).andThen
  rintro t _ m rfl
  apply (unionMembersWithin_moves (m.rest.length + 1) m).map
  rintro ts _ rfl loc
  rfl

theorem scalarTypeDefinition_moves :
    Moves n (Definition.map (Span.shift n)) scalarTypeDefinition := by
  refine positioned_moves (afterKeyword_moved (bytes "scalar") fun c => ?_)
  apply ((name_moves c).require .definitionName).map
  rintro x _ rfl loc
  rfl

theorem typeExtensionDefinition_moves :
    Moves n (Definition.map (Span.shift n)) typeExtensionDefinition := by
  refine positioned_moves (afterKeyword_moved (bytes "extend") fun c => ?_)
  apply ((objectTypeDefinition_moves c).require .objectDefinition).map
  rintro o _ rfl loc
  rfl

theorem definition_moves : Moves n (Definition.map (Span.shift n)) definition := by
  have hobject : Moves n (Definition.map (Span.shift n))
      fun c => (objectTypeDefinition c).map .object :=
    objectTypeDefinition_moves.map fun _ => rfl
  exact hobject.orElse <| interfaceTypeDefinition_moves.orElse <|
    unionTypeDefinition_moves.orElse <| scalarTypeDefinition_moves.orElse <|
    enumTypeDefinition_moves.orElse <| inputObjectTypeDefinition_moves.orElse
    typeExtensionDefinition_moves

theorem document_moves : Moves n (Document.map (Span.shift n)) document := by
  refine positioned_moves fun c => ?_
  apply (many_moves definition_moves c).andThen
  rintro xs _ m rfl
  simp only [Cursor.skipTrivia_move, Cursor.found_move]
  change Moved n _ (if m.skipTrivia.isEnd then _ else _) (if m.skipTrivia.isEnd then _ else _)
  cases m.skipTrivia.isEnd with
  | true => exact .matched m fun _ => rfl
  | false => exact m.fail_moved _

end SchemaDoc.Grammar
