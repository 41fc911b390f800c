import SchemaDoc.Proofs.Composition.Moved
import SchemaDoc.Proofs.Progress.Production
import SchemaDoc.Proofs.Trimming

/-! # The text ahead

What stands in front of an offset has no influence on what is read from there on.
A rule that is run at an offset of a text does what it does at the start of the
text ahead, only further behind.
-/

namespace SchemaDoc.Grammar

open Cursor (Decodes)

variable {α ε : Type} {n : Nat} {item : Rule α}

/-- A rule that moves on over whole characters only. -/
def Onward (rule : Rule α) : Prop := ∀ c a d, rule c = .matched a d → c.Decodes d

namespace Production

/-- What a production yields, with every location in it moved by `n`. -/
def shift (n : Nat) : (p : Production) → p.Result → p.Result
  | .name | .memberName => Name.map (Span.shift n)
  | .namedType => NamedType.map (Span.shift n)
  | .listType | .typeReference => TypeRef.map (Span.shift n)
  | .comment => Comment.map (Span.shift n)
  | .objectTypeDefinition => ObjectType.map (Span.shift n)
  | .definition | .interfaceTypeDefinition | .unionTypeDefinition | .scalarTypeDefinition
  | .enumTypeDefinition | .inputObjectTypeDefinition | .typeExtensionDefinition =>
    Definition.map (Span.shift n)
  | .enumValueDefinition => EnumMember.map (Span.shift n)
  | .fieldDefinition => Field.map (Span.shift n)
  | .inputValueDefinition | .inputFieldDefinition => InputValue.map (Span.shift n)
  | .implementsInterfaces => List.map (Element.map (Span.shift n) (NamedType.map (Span.shift n)))
  | .argumentsDefinition => List.map (Element.map (Span.shift n) (InputValue.map (Span.shift n)))
  | .defaultValue | .variableValue | .numberValue | .stringValue | .booleanValue | .enumValue
  | .value _ | .listValue _ | .objectValue _ => Value.map (Span.shift n)
  | .objectField _ => ObjectField.map (Span.shift n)

theorem moves (p : Production) : Moves n (p.shift n) p.rule := by
  cases p with
  | name => exact name_moves
  | memberName => exact memberName_moves
  | namedType => exact namedType_moves
  | listType => exact listTypeOf_moves typeReference_moves
  | typeReference => exact typeReference_moves
  | comment => exact comment_moves
  | definition => exact definition_moves
  | objectTypeDefinition => exact objectTypeDefinition_moves
  | interfaceTypeDefinition => exact interfaceTypeDefinition_moves
  | unionTypeDefinition => exact unionTypeDefinition_moves
  | scalarTypeDefinition => exact scalarTypeDefinition_moves
  | enumTypeDefinition => exact enumTypeDefinition_moves
  | enumValueDefinition => exact enumValueDefinition_moves
  | inputObjectTypeDefinition => exact inputObjectTypeDefinition_moves
  | typeExtensionDefinition => exact typeExtensionDefinition_moves
  | fieldDefinition => exact fieldDefinition_moves
  | inputValueDefinition => exact inputValueDefinition_moves
  | inputFieldDefinition => exact inputFieldDefinition_moves
  | implementsInterfaces => exact implementsInterfaces_moves
  | argumentsDefinition => exact argumentsDefinition_moves
  | defaultValue => exact defaultValue_moves
  | variableValue => exact variableValue_moves
  | numberValue => exact numberValue_moves
  | stringValue => exact stringValue_moves
  | booleanValue => exact booleanValue_moves
  | enumValue => exact enumValue_moves
  | value k => exact value_moves k
  | listValue k => exact listValueOf_moves (value_moves k)
  | objectValue k => exact objectValueOf_moves (value_moves k)
  | objectField k => exact objectFieldOf_moves (value_moves k)

theorem onward (p : Production) : Onward p.rule := fun _ _ _ h => (advances h).1.1

end Production

theorem manyWithin_onward {onComment : OnComment ε} {wrap : α → ε} (h : Onward item) (fuel : Nat) :
    Onward (manyWithin onComment item wrap fuel) := by
  intro c es d hes
  apply manyWithin_along (P := Decodes) _ _ _ _ hes
  · exact Decodes.refl
  · exact Decodes.trans
  · exact fun hc => Production.comment.onward _ _ _ hc
  · exact fun ha => h _ _ _ ha

theorem many_onward (h : Onward item) : Onward (many item) :=
  fun c => manyWithin_onward h (c.rest.length + 1) c

theorem manyOnly_onward (h : Onward item) : Onward (manyOnly item) :=
  fun c => manyWithin_onward h (c.rest.length + 1) c

theorem document_onward : Onward document := fun _ _ _ h =>
  (document_covers h).1.decodes (skipTrivia_of_positioned h)

theorem Cursor.atOffset_move (body : Bytes) (off stop : Nat) :
    (atOffset (body.drop off) stop).move off = atOffset body (off + stop) := by
  simp only [atOffset, move, List.drop_drop, Nat.add_comm]

/-- At every offset of a text the rule does what it does at the start of the text ahead: it matches
with the same result and stops at the same place, only that all locations are moved by the offset,
or it does not match and gives back where it started, or it fails at the same place, moved by the
offset, and by the same cause, so with the same code and message. -/
def ReadsAhead (shift : Nat → α → α) (rule : Rule α) : Prop :=
  ∀ (body : Bytes) (off : Nat),
    (∃ a stop, rule (.ofBody (body.drop off)) = .matched a (.atOffset (body.drop off) stop) ∧
      rule (.atOffset body off) = .matched (shift off a) (.atOffset body (off + stop)) ∧
      stop ≤ (body.drop off).length) ∨
    (rule (.ofBody (body.drop off)) = .noMatch (.ofBody (body.drop off)) ∧
      rule (.atOffset body off) = .noMatch (.atOffset body off)) ∨
    ∃ offset cause, rule (.ofBody (body.drop off)) = .failed ⟨offset, cause⟩ ∧
      rule (.atOffset body off) = .failed ⟨off + offset, cause⟩

theorem ReadsAhead.of_moves {shift : Nat → α → α} {rule : Rule α}
    (hmoves : ∀ n, Moves n (shift n) rule) (honward : Onward rule) (hback : Backtracks rule) :
    ReadsAhead shift rule := by
  intro body off
  have hmoved := hmoves off (.ofBody (body.drop off))
  have hstart : (Cursor.ofBody (body.drop off)).move off = .atOffset body off :=
    Cursor.atOffset_move body off 0
  rw [← hstart]
  have hreaches := honward (.ofBody (body.drop off))
  have hback := hback (.ofBody (body.drop off))
  generalize rule (.ofBody (body.drop off)) = o,
    rule ((Cursor.ofBody (body.drop off)).move off) = o' at *
  cases hmoved with
  | @matched a _ m hshift =>
    obtain ⟨w, hw, ho, -⟩ := hreaches a m rfl
    obtain ⟨hle, hm⟩ := Cursor.Reaches.eq_atOffset ⟨w, hw, ho⟩
    refine .inl ⟨a, m.offset, by rw [← hm], ?_, hle⟩
    rw [← Cursor.atOffset_move, ← hm, hshift]
  | noMatch back =>
    obtain rfl := hback back rfl
    exact .inr (.inl ⟨rfl, rfl⟩)
  | failed offset cause => exact .inr (.inr ⟨offset, cause, rfl, by rw [Nat.add_comm]⟩)

/-- Every production reads only the text ahead, and so do the two kinds of lists of it and whole
documents. That holds although spans are cut out of the whole text: between trivia, a rule gives
what it yields the span up to the trimmed end there, or it gives the cursor back. -/
theorem Production.reads_ahead :
    (∀ p : Production,
      ReadsAhead p.shift p.rule ∧
      ReadsAhead (fun n => List.map (Element.map (Span.shift n) (p.shift n))) (many p.rule) ∧
      ReadsAhead (fun n => List.map (p.shift n)) (manyOnly p.rule)) ∧
    ReadsAhead (fun n => Document.map (Span.shift n)) document ∧
    ∀ {α : Type} (rule : Rule (Span → α)) (body : Bytes) (off : Nat),
      ∃ start, (Cursor.atOffset body off).skipTrivia = .atOffset body start ∧
        positioned rule (.atOffset body off) =
          ((rule (.atOffset body start)).andThen fun located next =>
            .matched (located ⟨start, trimmedEnd body start next.offset⟩) next.skipTrivia).backTo
              (.atOffset body off) := by
  refine ⟨fun p => ⟨?_, ?_, ?_⟩, ?_, fun rule body off => ?_⟩
  · exact .of_moves (fun _ => p.moves) p.onward p.backtracks
  · exact .of_moves (fun _ => many_moves p.moves) (many_onward p.onward)
      fun c d h => absurd h (many_ne_noMatch _ c d)
  · exact .of_moves (fun _ => manyOnly_moves p.moves) (manyOnly_onward p.onward)
      fun c d h => absurd h (manyWithin_ne_noMatch _ _ _ _ c d)
  · exact .of_moves (fun _ => document_moves) document_onward (positioned_backtracks _)
  · have hstart := Cursor.skipTrivia_atOffset body off
    exact ⟨_, hstart, positioned_atOffset rule hstart⟩

/-- A rule cannot tell that it starts inside of a string. -/
example : memberName (.atOffset (bytes "\"ab\"") 1) =
    .matched ⟨⟨1, 3⟩, bytes "ab"⟩ (.atOffset (bytes "\"ab\"") 3) := rfl

end SchemaDoc.Grammar
