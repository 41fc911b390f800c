import SchemaDoc.Proofs.Progress.Recursion

/-! # Productions

Every production either fails, or does not match and gives back the cursor it
was given, or matches and moves on over whole characters. So the list over any of
them ends, and with it the reading of every text.
-/

namespace SchemaDoc.Grammar

open Character (Boundary)

variable {k : Constancy} {c d : Cursor}

/-- The rules of the grammar, but for lists and whole documents. -/
inductive Production where
  | name
  | memberName
  | namedType
  | listType
  | typeReference
  | comment
  | definition
  | objectTypeDefinition
  | interfaceTypeDefinition
  | unionTypeDefinition
  | scalarTypeDefinition
  | enumTypeDefinition
  | enumValueDefinition
  | inputObjectTypeDefinition
  | typeExtensionDefinition
  | fieldDefinition
  | inputValueDefinition
  | inputFieldDefinition
  | implementsInterfaces
  | argumentsDefinition
  | defaultValue
  | variableValue
  | numberValue
  | stringValue
  | booleanValue
  | enumValue
  | value (k : Constancy)
  | listValue (k : Constancy)
  | objectValue (k : Constancy)
  | objectField (k : Constancy)
deriving DecidableEq, Repr

namespace Production

/-- What a production yields. -/
abbrev Result : Production → Type
  | .name | .memberName => Name Span
  | .namedType => NamedType Span
  | .listType | .typeReference => TypeRef Span
  | .comment => Comment Span
  | .objectTypeDefinition => ObjectType Span
  | .definition | .interfaceTypeDefinition | .unionTypeDefinition | .scalarTypeDefinition
  | .enumTypeDefinition | .inputObjectTypeDefinition | .typeExtensionDefinition => Definition Span
  | .enumValueDefinition => EnumMember Span
  | .fieldDefinition => Field Span
  | .inputValueDefinition | .inputFieldDefinition => InputValue Span
  | .implementsInterfaces => List (Element Span (NamedType Span))
  | .argumentsDefinition => List (Element Span (InputValue Span))
  | .defaultValue | .variableValue | .numberValue | .stringValue | .booleanValue | .enumValue
  | .value _ | .listValue _ | .objectValue _ => Value Span
  | .objectField _ => ObjectField Span

abbrev rule : (p : Production) → Rule p.Result
  | .name => Grammar.name
  | .memberName => Grammar.memberName
  | .namedType => Grammar.namedType
  | .listType => Grammar.listType
  | .typeReference => Grammar.typeReference
  | .comment => Grammar.comment
  | .definition => Grammar.definition
  | .objectTypeDefinition => Grammar.objectTypeDefinition
  | .interfaceTypeDefinition => Grammar.interfaceTypeDefinition
  | .unionTypeDefinition => Grammar.unionTypeDefinition
  | .scalarTypeDefinition => Grammar.scalarTypeDefinition
  | .enumTypeDefinition => Grammar.enumTypeDefinition
  | .enumValueDefinition => Grammar.enumValueDefinition
  | .inputObjectTypeDefinition => Grammar.inputObjectTypeDefinition
  | .typeExtensionDefinition => Grammar.typeExtensionDefinition
  | .fieldDefinition => Grammar.fieldDefinition
  | .inputValueDefinition => Grammar.inputValueDefinition
  | .inputFieldDefinition => Grammar.inputFieldDefinition
  | .implementsInterfaces => Grammar.implementsInterfaces
  | .argumentsDefinition => Grammar.argumentsDefinition
  | .defaultValue => Grammar.defaultValue
  | .variableValue => Grammar.variableValue
  | .numberValue => Grammar.numberValue
  | .stringValue => Grammar.stringValue
  | .booleanValue => Grammar.booleanValue
  | .enumValue => Grammar.enumValue
  | .value k => Grammar.value k
  | .listValue k => Grammar.listValue k
  | .objectValue k => Grammar.objectValue k
  | .objectField k => Grammar.objectField k

end Production

theorem skipTrivia_of_value {v : Value Span} (h : value k c = .matched v d) : d.skipTrivia = d := by
  rw [(value_recursion k).unfolds] at h
  simp only [valueOf, Outcome.orElse_eq_matched] at h
  rcases h with h | ⟨-, h | ⟨-, h | ⟨-, h | ⟨-, h | ⟨-, h | ⟨-, h⟩⟩⟩⟩⟩⟩
  · cases k
    · simp [variableWhere] at h
    · exact skipTrivia_of_positioned (show variableValue c = .matched v d from h)
  all_goals exact skipTrivia_of_positioned h

theorem skipTrivia_of_typeReference {t : TypeRef Span} (h : typeReference c = .matched t d) :
    d.skipTrivia = d := by
  rw [typeReference_recursion.unfolds] at h
  exact skipTrivia_of_positioned h

theorem value_advances {v : Value Span} (h : value k c = .matched v d) : c.Advances d :=
  (value_covers h).advances id (skipTrivia_of_value h)

theorem name_advances {n : Name Span} (h : name c = .matched n d) : c.Advances d :=
  (name_covers (k := .constant) h).advances id (skipTrivia_of_positioned h)

theorem enumValue_advances {v : Value Span} (h : enumValue c = .matched v d) : c.Advances d := by
  obtain ⟨f, m, hm, rfl, -⟩ := positioned_eq_matched h
  obtain ⟨n, hn, -⟩ := Outcome.map_eq_matched.mp hm
  exact (c.decodes_skipTrivia.trans_advances (name_advances hn)).trans m.decodes_skipTrivia

theorem defaultValue_advances {v : Value Span} (h : defaultValue c = .matched v d) :
    c.Advances d ∧ d.skipTrivia = d := by
  rw [defaultValue] at h
  split at h
  · simp at h
  · next next hequals =>
    have hvalue := Outcome.require_eq_matched.mp h
    have hmark := ((Token.literal?_eq_some_iff (by decide)).mp hequals).advances
    exact ⟨hmark.trans (value_advances hvalue).1, skipTrivia_of_value hvalue⟩

theorem implementsInterfaces_advances {ts : List (Element Span (NamedType Span))}
    (h : implementsInterfaces c = .matched ts d) : c.Advances d ∧ d.skipTrivia = d := by
  obtain ⟨m, hword, hrest⟩ := afterKeyword_eq_matched.mp h
  obtain ⟨es, e, hmany, hend⟩ := Outcome.andThen_eq_matched.mp hrest
  obtain ⟨-, rfl⟩ := Outcome.matched.inj hend
  have hkeyword := ((Token.keyword?_eq_some_iff (by decide)).mp hword).advances
  have htypes := (many_covers (k := .constant) (fun _ _ _ => namedType_covers) hmany).skipRight
  exact ⟨hkeyword.trans (htypes.decodes e.skipTrivia_skipTrivia), e.skipTrivia_skipTrivia⟩

theorem argumentsDefinition_advances {arguments : List (Element Span (InputValue Span))}
    (h : argumentsDefinition c = .matched arguments d) : c.Advances d := by
  rw [argumentsDefinition] at h
  split at h
  · simp at h
  · obtain ⟨m, e, hopen, hmany, hclose⟩ := enclosed_eq_matched.mp h
    have hopen := ((Token.literal?_eq_some_iff (by decide)).mp hopen).advances
    have hmembers := (many_covers (fun _ _ _ => inputValueDefinition_covers) hmany).skipRight
    have hclose := ((Token.literal?_eq_some_iff (by decide)).mp hclose).congr
      (e := e.skipTrivia) (by simp)
    exact (hopen.trans (hmembers.decodes e.skipTrivia_skipTrivia)).trans hclose.advances.1

namespace Production

/-- A production that matches moves on over whole characters. It stops in front of no trivia, but
for the arguments of a field, which end with their parenthesis. -/
theorem advances {p : Production} {a : p.Result} (h : p.rule c = .matched a d) :
    c.Advances d ∧ (p ≠ .argumentsDefinition → d.skipTrivia = d) := by
  have node {k : Constancy} {n : Node Span} (hn : ¬ n.IsDocument) (hcovers : Covers k [.node n] c d)
      (hd : d.skipTrivia = d) : c.Advances d ∧ (p ≠ .argumentsDefinition → d.skipTrivia = d) :=
    ⟨hcovers.advances hn hd, fun _ => hd⟩
  cases p with
  | name => exact ⟨name_advances h, fun _ => skipTrivia_of_positioned h⟩
  | memberName => exact node (k := .constant) id (memberName_covers h) (skipTrivia_of_positioned h)
  | namedType => exact node (k := .constant) id (namedType_covers h) (skipTrivia_of_positioned h)
  | listType =>
    have h : listTypeOf Grammar.typeReference c = .matched a d := h
    exact node (k := .constant) id (listTypeOf_covers (fun _ _ _ => typeReference_covers) h)
      (skipTrivia_of_positioned h)
  | typeReference =>
    exact node (k := .constant) id (typeReference_covers h) (skipTrivia_of_typeReference h)
  | comment => exact node (k := .constant) id (comment_covers h) (skipTrivia_of_positioned h)
  | definition => exact node id (definition_covers h) (skipTrivia_of_definition h)
  | objectTypeDefinition =>
    exact node id (objectTypeDefinition_covers h) (skipTrivia_of_positioned h)
  | interfaceTypeDefinition =>
    exact node id (interfaceTypeDefinition_covers h) (skipTrivia_of_positioned h)
  | unionTypeDefinition =>
    exact node id (unionTypeDefinition_covers h) (skipTrivia_of_positioned h)
  | scalarTypeDefinition =>
    exact node id (scalarTypeDefinition_covers h) (skipTrivia_of_positioned h)
  | enumTypeDefinition => exact node id (enumTypeDefinition_covers h) (skipTrivia_of_positioned h)
  | enumValueDefinition =>
    exact node (k := .constant) id (enumValueDefinition_covers h) (skipTrivia_of_positioned h)
  | inputObjectTypeDefinition =>
    exact node id (inputObjectTypeDefinition_covers h) (skipTrivia_of_positioned h)
  | typeExtensionDefinition =>
    exact node id (typeExtensionDefinition_covers h) (skipTrivia_of_positioned h)
  | fieldDefinition => exact node id (fieldDefinition_covers h) (skipTrivia_of_positioned h)
  | inputValueDefinition =>
    exact node id (inputValueDefinition_covers h) (skipTrivia_of_positioned h)
  | inputFieldDefinition =>
    exact node id (inputFieldDefinition_covers h) (skipTrivia_of_positioned h)
  | implementsInterfaces =>
    obtain ⟨hadvances, hd⟩ := implementsInterfaces_advances h
    exact ⟨hadvances, fun _ => hd⟩
  | argumentsDefinition => exact ⟨argumentsDefinition_advances h, fun hp => absurd rfl hp⟩
  | defaultValue =>
    obtain ⟨hadvances, hd⟩ := defaultValue_advances h
    exact ⟨hadvances, fun _ => hd⟩
  | variableValue => exact node id (variableValue_covers h) (skipTrivia_of_positioned h)
  | numberValue => exact node (k := .constant) id (numberValue_covers h) (skipTrivia_of_positioned h)
  | stringValue => exact node (k := .constant) id (stringValue_covers h) (skipTrivia_of_positioned h)
  | booleanValue =>
    exact node (k := .constant) id (booleanValue_covers h) (skipTrivia_of_positioned h)
  | enumValue => exact ⟨enumValue_advances h, fun _ => skipTrivia_of_positioned h⟩
  | value k => exact ⟨value_advances h, fun _ => skipTrivia_of_value h⟩
  | listValue k =>
    have h : listValueOf (Grammar.value k) c = .matched a d := h
    exact node id (listValueOf_covers (fun _ _ _ => value_covers) h) (skipTrivia_of_positioned h)
  | objectValue k =>
    have h : objectValueOf (Grammar.value k) c = .matched a d := h
    exact node id (objectValueOf_covers (fun _ _ _ => value_covers) h) (skipTrivia_of_positioned h)
  | objectField k =>
    have h : objectFieldOf (Grammar.value k) c = .matched a d := h
    exact node id (objectFieldOf_covers (fun _ _ _ => value_covers) h) (skipTrivia_of_positioned h)

theorem shortens (p : Production) : Shortens p.rule := fun _ _ _ h => (advances h).1.2

/-- Nothing is taken by a production that does not match, neither trivia nor a word. -/
theorem backtracks (p : Production) : Backtracks p.rule := by
  cases p with
  | typeReference => exact typeReference_backtracks
  | definition => exact definition_backtracks
  | implementsInterfaces => exact implementsInterfaces_backtracks
  | argumentsDefinition => exact argumentsDefinition_backtracks
  | defaultValue => exact defaultValue_backtracks
  | value k => exact value_backtracks k
  | _ => exact fun _ _ h => Outcome.eq_of_backTo h

end Production

theorem document_ends (c : Cursor) :
    (∃ t d, document c = .matched t d) ∨ ∃ e, document c = .failed e := by
  rw [document, positioned]
  cases hmany : many definition c.skipTrivia with
  | noMatch back => exact absurd hmany (many_ne_noMatch definition _ back)
  | failed e => exact .inr ⟨e, rfl⟩
  | matched definitions next =>
    cases hend : next.skipTrivia.isEnd with
    | false => exact .inr ⟨_, by simp only [Outcome.andThen, hend]; rfl⟩
    | true => exact .inl ⟨_, _, by simp only [Outcome.andThen, hend, if_true]; rfl⟩

/-- Every production makes progress. At each offset of a text it fails, or it does not match and
gives that offset back, or it matches one or more whole characters. Lists of it end, the recursions
of the grammar end, and so a text is read as a document or there is a failure. -/
theorem Production.makes_progress (p : Production) (body : Bytes) :
    (∀ off, (∃ e, p.rule (.atOffset body off) = .failed e) ∨
      p.rule (.atOffset body off) = .noMatch (.atOffset body off) ∨
      ∃ a off', p.rule (.atOffset body off) = .matched a (.atOffset body off') ∧
        off < off' ∧ off' ≤ body.length ∧ Boundary (body.drop off) (off' - off) ∧
        (p = .argumentsDefinition ∨ ¬ StartsTrivial (body.drop off'))) ∧
    ListEnds (fun found => .ok (.comment found)) p.rule .member (many p.rule) ∧
    ListEnds (fun _ => .error .comment) p.rule id (manyOnly p.rule) ∧
    Defines typeReferenceOf Grammar.typeReference ∧
    (∀ k, Defines (valueOf k) (Grammar.value k)) ∧
    Defines unionMembersOf unionMembers ∧
    ((∃ t d, document (.ofBody body) = .matched t d) ∨
      ∃ e, document (.ofBody body) = .failed e) := by
  refine ⟨fun off => ?_, listEnds_manyWithin p.shortens p.backtracks,
    listEnds_manyWithin p.shortens p.backtracks, typeReference_recursion.defines,
    fun k => (value_recursion k).defines, unionMembers_recursion.defines, document_ends _⟩
  cases h : p.rule (.atOffset body off) with
  | failed e => exact .inl ⟨e, rfl⟩
  | noMatch back =>
    obtain rfl := p.backtracks _ _ h
    exact .inr (.inl rfl)
  | matched a d =>
    obtain ⟨hadvances, hd⟩ := p.advances h
    obtain ⟨off', rfl, hlt, hle, hboundary⟩ := hadvances.exists_atOffset
    refine .inr (.inr ⟨a, off', rfl, hlt, hle, hboundary, ?_⟩)
    by_cases hp : p = .argumentsDefinition
    · exact .inl hp
    · have htrivia := (Cursor.atOffset body off').not_startsTrivial_skipTrivia
      rw [hd hp] at htrivia
      exact .inr htrivia

end SchemaDoc.Grammar
