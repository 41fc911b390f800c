import SchemaDoc.Proofs.Grammar.Backtracking
import SchemaDoc.Proofs.Soundness.Values

/-! # What definitions and documents cover

Every definition rule is a sequence of smaller rules behind its keyword, so what
it covers is put together from what they cover. A document covers the whole
text, and its span starts and ends where its first and last definitions do.
-/

namespace SchemaDoc.Grammar

variable {α : Type} {k : Constancy} {c d : Cursor}

theorem enclosed_covers {opening closing : String} (ho : bytes opening ∈ marks)
    (hc : bytes closing ∈ marks) {item : Rule α} {ofMember : α → Node Span}
    (hitem : ∀ c a d, item c = .matched a d → Covers k [.node (ofMember a)] c d)
    {elements : List (Element Span α)}
    (h : enclosed (bytes opening) (bytes closing) item c = .matched elements d) :
    Covers k (.mark opening :: (Element.parts ofMember elements ++ [.mark closing])) c d := by
  obtain ⟨m, e, hopen, helements, hclose⟩ := enclosed_eq_matched.mp h
  exact (Covers.mark ho hopen).cons ((many_covers hitem helements).append (.mark hc hclose))

theorem block_covers {item : Rule α} {ofMember : α → Node Span}
    (hitem : ∀ c a d, item c = .matched a d → Covers k [.node (ofMember a)] c d)
    {elements : List (Element Span α)} (h : block item c = .matched elements d) :
    Covers k (Element.blockParts ofMember elements) c d :=
  enclosed_covers (by decide) (by decide) hitem h

theorem memberType_covers {t : TypeRef Span} (h : memberType c = .matched t d) :
    Covers k [.mark ":", .type t] c d := by
  simp only [memberType, Outcome.andThen_eq_matched, Outcome.require_eq_matched,
    expect_eq_matched] at h
  obtain ⟨_, m, hcolon, ht⟩ := h
  exact (Covers.mark (by decide) hcolon).cons (typeReference_covers ht)

theorem inputValueRest_covers {n : Name Span} {f : Span → InputValue Span}
    (h : inputValueRest n c = .matched f d) :
    ∃ t v, (f = fun loc => ⟨loc, n, t, v⟩) ∧
      Covers .constant (.mark ":" :: .type t :: Value.defaultParts v) c d := by
  simp only [inputValueRest, Outcome.andThen_eq_matched, Outcome.map_eq_matched] at h
  obtain ⟨t, m, ht, v, hv, rfl⟩ := h
  refine ⟨t, v, rfl, (memberType_covers ht).append ?_⟩
  rcases defaultValue_backtracks.optional_eq_matched.mp hv with ⟨a, rfl, ha⟩ | ⟨rfl, rfl, -⟩
  · exact defaultValue_covers ha
  · exact .nil m

theorem inputValueDefinition_covers {a : InputValue Span}
    (h : inputValueDefinition c = .matched a d) : Covers .constant [.node (.inputValue a)] c d := by
  refine .positioned .inputValue h fun f m hf => ?_
  obtain ⟨n, e, hn, hrest⟩ := Outcome.andThen_eq_matched.mp hf
  obtain ⟨t, v, rfl, hcovers⟩ := inputValueRest_covers hrest
  exact ⟨_, (memberName_covers hn).cons hcovers, fun loc => ⟨trivial, rfl, rfl⟩⟩

theorem inputFieldDefinition_covers {a : InputValue Span}
    (h : inputFieldDefinition c = .matched a d) : Covers .constant [.node (.inputValue a)] c d := by
  refine .positioned .inputValue h fun f m hf => ?_
  obtain ⟨n, e, hn, hrest⟩ := Outcome.andThen_eq_matched.mp hf
  split at hrest
  · simp [Cursor.fail] at hrest
  · obtain ⟨t, v, rfl, hcovers⟩ := inputValueRest_covers hrest
    exact ⟨_, (memberName_covers hn).cons hcovers, fun loc => ⟨trivial, rfl, rfl⟩⟩

theorem argumentsDefinition_covers {arguments : List (Element Span (InputValue Span))}
    (h : argumentsDefinition c = .matched arguments d) :
    Covers .constant (Field.argumentParts (some arguments)) c d := by
  rw [argumentsDefinition] at h
  split at h
  · simp at h
  · exact enclosed_covers (by decide) (by decide)
      (fun _ _ _ => inputValueDefinition_covers) h

theorem fieldDefinition_covers {a : Field Span} (h : fieldDefinition c = .matched a d) :
    Covers .constant [.node (.field a)] c d := by
  refine .positioned .field h fun f m hf => ?_
  simp only [Outcome.andThen_eq_matched, Outcome.map_eq_matched] at hf
  obtain ⟨n, e, hn, arguments, e', harguments, t, ht, rfl⟩ := hf
  have hcovers : Covers .constant (Field.argumentParts arguments) e e' := by
    rcases argumentsDefinition_backtracks.optional_eq_matched.mp harguments with
      ⟨a, rfl, ha⟩ | ⟨rfl, rfl, -⟩
    · exact argumentsDefinition_covers ha
    · exact .nil e
  exact ⟨_, (memberName_covers hn).cons (hcovers.append (memberType_covers ht)),
    fun loc => ⟨trivial, rfl, rfl⟩⟩

theorem enumValueDefinition_covers {a : EnumMember Span}
    (h : enumValueDefinition c = .matched a d) : Covers k [.node (.enumMember a)] c d := by
  refine .positioned .enumMember h fun f m hf => ?_
  obtain ⟨n, hn, rfl⟩ := Outcome.map_eq_matched.mp hf
  exact ⟨_, name_covers hn, fun loc => ⟨(name_eq_matched.mp hn).2, rfl, rfl⟩⟩

theorem definitionName_eq_matched {n : Name Span} :
    definitionName c = .matched n d ↔ name c = .matched n d :=
  Outcome.require_eq_matched

/-- The word `implements` is written without interfaces only where it is left out of the tree. -/
theorem implements_covers {interfaces : Option (List (Element Span (NamedType Span)))}
    (h : optional implementsInterfaces c = .matched interfaces d) (loc : Span) (n : Name Span)
    (fields : List (Element Span (Field Span))) :
    Covers .constant ((ObjectType.mk loc n (interfaces.getD []) fields).implementsPart ::
      Element.parts (fun t => .type (.named t)) (interfaces.getD [])) c d := by
  rcases implementsInterfaces_backtracks.optional_eq_matched.mp h with
    ⟨es, rfl, hes⟩ | ⟨rfl, rfl, -⟩
  · obtain ⟨m, hword, hrest⟩ := afterKeyword_eq_matched.mp hes
    obtain ⟨es', e, hmany, hmatched⟩ := Outcome.andThen_eq_matched.mp hrest
    obtain ⟨rfl, rfl⟩ := Outcome.matched.inj hmatched
    have htypes := (many_covers (fun _ _ _ => namedType_covers) hmany).skipRight (k := .constant)
    have hreads := (Token.keyword?_eq_some_iff (by decide)).mp hword
    cases es' with
    | nil => exact ⟨hreads.reaches.trans htypes.1, .kept hreads htypes.2⟩
    | cons t ts => exact ⟨hreads.reaches.trans htypes.1, .token hreads htypes.2⟩
  · exact ⟨.refl c, .omitted (.nil rfl)⟩

theorem objectTypeDefinition_covers {a : ObjectType Span}
    (h : objectTypeDefinition c = .matched a d) :
    Covers .constant [.node (.definition (.object a))] c d := by
  refine .positioned (fun o => .definition (.object o)) h fun f m hf => ?_
  simp only [afterKeyword_eq_matched, Outcome.andThen_eq_matched, Outcome.require_eq_matched,
    Outcome.map_eq_matched] at hf
  obtain ⟨e, hword, n, e', hn, interfaces, e'', hinterfaces, fields, hfields, rfl⟩ := hf
  refine ⟨_, (Covers.word (by decide) hword).cons ((name_covers hn).cons
    ((implements_covers hinterfaces ⟨0, 0⟩ n fields).append
      (block_covers (fun _ _ _ => fieldDefinition_covers) hfields))), fun loc => ?_⟩
  exact ⟨(name_eq_matched.mp hn).2, rfl, rfl⟩

theorem interfaceTypeDefinition_covers {a : Definition Span}
    (h : interfaceTypeDefinition c = .matched a d) :
    Covers .constant [.node (.definition a)] c d := by
  refine .positioned .definition h fun f m hf => ?_
  simp only [afterKeyword_eq_matched, Outcome.andThen_eq_matched, definitionName_eq_matched,
    Outcome.map_eq_matched] at hf
  obtain ⟨e, hword, n, e', hn, fields, hfields, rfl⟩ := hf
  exact ⟨_, (Covers.word (by decide) hword).cons ((name_covers hn).cons
    (block_covers (fun _ _ _ => fieldDefinition_covers) hfields)),
    fun loc => ⟨(name_eq_matched.mp hn).2, rfl, rfl⟩⟩

theorem unionMember_covers {t : NamedType Span} (h : unionMember c = .matched t d) :
    Covers k [.type (.named t)] c d :=
  namedType_covers (Outcome.require_eq_matched.mp h)

theorem unionMembersWithin_covers {fuel : Nat} {ts : List (NamedType Span)}
    (h : unionMembersWithin fuel c = .matched ts d) :
    Covers k (ts.flatMap fun t => [.mark "|", .type (.named t)]) c d := by
  induction fuel generalizing c ts with
  | zero =>
    obtain ⟨rfl, rfl⟩ := Outcome.matched.inj h
    exact .nil c
  | succ fuel ih =>
    rw [unionMembersWithin] at h
    split at h
    · obtain ⟨rfl, rfl⟩ := Outcome.matched.inj h
      exact .nil c
    · next next hbar =>
      simp only [Outcome.andThen_eq_matched, Outcome.map_eq_matched] at h
      obtain ⟨t, e, ht, ts, hts, rfl⟩ := h
      exact (Covers.mark (by decide) hbar).cons ((unionMember_covers ht).cons (ih hts))

theorem unionTypeDefinition_covers {a : Definition Span}
    (h : unionTypeDefinition c = .matched a d) : Covers .constant [.node (.definition a)] c d := by
  refine .positioned .definition h fun f m hf => ?_
  simp only [afterKeyword_eq_matched, Outcome.andThen_eq_matched, definitionName_eq_matched,
    expect_eq_matched, Outcome.map_eq_matched] at hf
  obtain ⟨e, hword, n, e', hn, _, e'', hequals, t, e''', ht, ts, hts, rfl⟩ := hf
  refine ⟨_, (Covers.word (by decide) hword).cons ((name_covers hn).cons
    ((Covers.mark (by decide) hequals).cons ((unionMember_covers ht).cons
      (unionMembersWithin_covers hts)))), fun loc => ⟨?_, rfl, ?_⟩⟩
  · exact ⟨(name_eq_matched.mp hn).2, by simp⟩
  · rw [Node.parts, Definition.parts, NamedType.unionParts_cons]

theorem scalarTypeDefinition_covers {a : Definition Span}
    (h : scalarTypeDefinition c = .matched a d) : Covers .constant [.node (.definition a)] c d := by
  refine .positioned .definition h fun f m hf => ?_
  simp only [afterKeyword_eq_matched, definitionName_eq_matched, Outcome.map_eq_matched] at hf
  obtain ⟨e, hword, n, hn, rfl⟩ := hf
  exact ⟨_, (Covers.word (by decide) hword).cons (name_covers hn),
    fun loc => ⟨(name_eq_matched.mp hn).2, rfl, rfl⟩⟩

theorem enumTypeDefinition_covers {a : Definition Span}
    (h : enumTypeDefinition c = .matched a d) : Covers .constant [.node (.definition a)] c d := by
  refine .positioned .definition h fun f m hf => ?_
  simp only [afterKeyword_eq_matched, Outcome.andThen_eq_matched, definitionName_eq_matched,
    Outcome.map_eq_matched] at hf
  obtain ⟨e, hword, n, e', hn, members, hmembers, rfl⟩ := hf
  exact ⟨_, (Covers.word (by decide) hword).cons ((name_covers hn).cons
    (block_covers (fun _ _ _ => enumValueDefinition_covers) hmembers)),
    fun loc => ⟨(name_eq_matched.mp hn).2, rfl, rfl⟩⟩

theorem inputObjectTypeDefinition_covers {a : Definition Span}
    (h : inputObjectTypeDefinition c = .matched a d) :
    Covers .constant [.node (.definition a)] c d := by
  refine .positioned .definition h fun f m hf => ?_
  simp only [afterKeyword_eq_matched, Outcome.andThen_eq_matched, definitionName_eq_matched,
    Outcome.map_eq_matched] at hf
  obtain ⟨e, hword, n, e', hn, fields, hfields, rfl⟩ := hf
  exact ⟨_, (Covers.word (by decide) hword).cons ((name_covers hn).cons
    (block_covers (fun _ _ _ => inputFieldDefinition_covers) hfields)),
    fun loc => ⟨(name_eq_matched.mp hn).2, rfl, rfl⟩⟩

theorem typeExtensionDefinition_covers {a : Definition Span}
    (h : typeExtensionDefinition c = .matched a d) :
    Covers .constant [.node (.definition a)] c d := by
  refine .positioned .definition h fun f m hf => ?_
  simp only [afterKeyword_eq_matched, Outcome.require_eq_matched, Outcome.map_eq_matched] at hf
  obtain ⟨e, hword, o, ho, rfl⟩ := hf
  exact ⟨_, (Covers.word (by decide) hword).cons (objectTypeDefinition_covers ho),
    fun loc => ⟨trivial, rfl, rfl⟩⟩

theorem definition_covers {a : Definition Span} (h : definition c = .matched a d) :
    Covers .constant [.node (.definition a)] c d := by
  simp only [definition, Outcome.orElse_eq_matched, Outcome.map_eq_matched] at h
  rcases h with ⟨o, ho, rfl⟩ | ⟨-, h | ⟨-, h | ⟨-, h | ⟨-, h | ⟨-, h | ⟨-, h⟩⟩⟩⟩⟩⟩
  · exact objectTypeDefinition_covers ho
  · exact interfaceTypeDefinition_covers h
  · exact unionTypeDefinition_covers h
  · exact scalarTypeDefinition_covers h
  · exact enumTypeDefinition_covers h
  · exact inputObjectTypeDefinition_covers h
  · exact typeExtensionDefinition_covers h

/-- A document covers all that is left of the text. -/
theorem document_covers {a : Document Span} (h : document c = .matched a d) :
    Covers .constant [.node (.document a)] c d ∧ d.rest = [] := by
  constructor
  · refine .positioned .document h fun f m hf => ?_
    obtain ⟨definitions, e, hmany, hend⟩ := Outcome.andThen_eq_matched.mp hf
    split at hend
    · obtain ⟨rfl, rfl⟩ := Outcome.matched.inj hend
      exact ⟨_, many_covers (fun _ _ _ => definition_covers) hmany,
        fun loc => ⟨trivial, rfl, rfl⟩⟩
    · simp [Cursor.fail] at hend
  · obtain ⟨f, m, hf, rfl, -⟩ := positioned_eq_matched h
    obtain ⟨definitions, e, -, hend⟩ := Outcome.andThen_eq_matched.mp hf
    split at hend
    · next hisEnd =>
      obtain ⟨-, rfl⟩ := Outcome.matched.inj hend
      exact List.isEmpty_iff.mp hisEnd
    · simp [Cursor.fail] at hend

end SchemaDoc.Grammar
