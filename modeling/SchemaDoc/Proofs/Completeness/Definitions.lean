import SchemaDoc.Proofs.Completeness.Values

/-! # What is written is matched: definitions

Members of a list are told apart by the first character of the next one: a type
is followed by no exclamation mark, an input value by no equals sign and a union
by no bar, unless it is their own.
-/

namespace SchemaDoc.Grammar

variable {L : Type} {α β : Type} {k : Constancy} {g : Span → L} {p : UInt8 → Bool}
  {c d e : Cursor} {f : α → β}

theorem enclosed_yields {opening closing : String} {item : Rule α} {ofMember : β → Node L}
    {Follow : β → Cursor → Prop} {es : List (Element L β)}
    (hl : ∀ bound, Listed k g p item f ofMember Follow bound) (hneeds : Needs p item)
    (hclosing : ∀ e m, (Token.mark (bytes closing)).Reads e m →
      e.Avoids (fun x => p x || x == 0x23) ∧ ∀ b, Follow b e)
    (h : Written k g (.mark opening :: (Element.parts ofMember es ++ [.mark closing])) c d) :
    ∃ xs m, enclosed (bytes opening) (bytes closing) item c = .matched xs m ∧
      xs.map (Element.map g f) = es ∧ m.skipTrivia = d.skipTrivia ∧ c.skipTrivia.Reaches m := by
  obtain ⟨m, xs, n, e, hopen, hxs, hclose, hmap, hskip, hreach⟩ :=
    (hl _).bracketed_yields hneeds (Nat.le_refl _) hclosing h
  refine ⟨xs, e, ?_, hmap, hskip, hreach⟩
  simp only [enclosed, expect, hopen, hxs, Outcome.andThen, Outcome.map]
  simp only [expect] at hclose
  rw [hclose]

theorem memberType_yields {t : TypeRef L} (h : Written k g [.mark ":", .type t] c d)
    (hd : d.Avoids (· == 0x21)) : Yields memberType (TypeRef.map g) t c d := by
  obtain ⟨m, hcolon, htype⟩ := Written.mark_iff.mp h
  obtain ⟨x, hx, hmap⟩ := typeReference_yields htype hd
  refine ⟨x, ?_, hmap⟩
  simp only [memberType, expect_of_reads hcolon, hx, Outcome.andThen, Outcome.require]

theorem inputValueRest_yields {t : TypeRef L} {v : Option (Value L)} (n : Name Span)
    (h : Written .constant g (.mark ":" :: .type t :: Value.defaultParts v) c d)
    (hbang : d.Avoids (· == 0x21)) (hequals : d.Avoids (· == 0x3D)) :
    ∃ x y, inputValueRest n c = .matched (fun loc => ⟨loc, n, x, y⟩) d.skipTrivia ∧
      x.map g = t ∧ y.map (Value.map g) = v := by
  cases v with
  | none =>
    obtain ⟨x, hx, hmap⟩ := memberType_yields h hbang
    have hnone : defaultValue d.skipTrivia = .noMatch d.skipTrivia :=
      defaultValue_needs _ (Cursor.avoids_skipTrivia.mpr hequals)
    refine ⟨x, none, ?_, hmap, rfl⟩
    simp only [inputValueRest, hx, Outcome.andThen, optional, hnone, Outcome.map]
  | some v =>
    have hsplit : Written .constant g ([.mark ":", .type t] ++ Value.defaultParts (some v)) c d := h
    obtain ⟨e, htype, hdefault⟩ := Written.append_iff.mp hsplit
    obtain ⟨m, hmark, -⟩ := Written.mark_iff.mp hdefault
    obtain ⟨x, hx, hmap⟩ := memberType_yields htype (hmark.avoids rfl)
    obtain ⟨y, hy, rfl⟩ := defaultValue_yields (hdefault.congr_left (e := e.skipTrivia) (by simp))
    refine ⟨x, some y, ?_, hmap, rfl⟩
    simp only [inputValueRest, hx, Outcome.andThen, optional, hy, Outcome.map]

theorem inputValueDefinition_needs : Needs isNameStart inputValueDefinition :=
  (memberName_needs.andThen _).positioned

theorem inputFieldDefinition_needs : Needs isNameStart inputFieldDefinition :=
  (memberName_needs.andThen _).positioned

section InputValue

variable {i : InputValue L} (h : Written .constant g [.node (.inputValue i)] c d)
  (hbang : d.Avoids (· == 0x21)) (hequals : d.Avoids (· == 0x3D))

include h hbang hequals

private theorem exists_of_written_inputValue :
    ∃ n m x y, memberName c.skipTrivia = .matched n m ∧ m.Avoids (· == 0x28) ∧
      inputValueRest n m = .matched (fun loc => ⟨loc, n, x, y⟩) d.skipTrivia ∧
      c.skipTrivia.Reaches d.skipTrivia ∧ InputValue.map g ⟨c.spanTo d, n, x, y⟩ = i := by
  obtain ⟨loc, n, t, v⟩ := i
  obtain ⟨-, hloc, hparts⟩ := Written.single_iff.mp h
  obtain ⟨m, hname, hrest⟩ := Written.cons_iff.mp hparts
  have hrest' := hrest.congr_left (e := m.skipTrivia) (by simp)
  obtain ⟨n', hn, rfl⟩ := memberName_yields (hname.congr_left (e := c.skipTrivia) (by simp))
  obtain ⟨x, y, hxy, rfl, rfl⟩ := inputValueRest_yields n' hrest' hbang hequals
  obtain ⟨e, hcolon, -⟩ := Written.mark_iff.mp hrest'
  refine ⟨n', _, x, y, hn, hcolon.avoids rfl, hxy, hparts.reaches, ?_⟩
  rw [InputValue.map, ← hloc]
  rfl

theorem inputValueDefinition_yields :
    Yields inputValueDefinition (InputValue.map g) i c d := by
  obtain ⟨n, m, x, y, hn, -, hxy, hreach, hmap⟩ := exists_of_written_inputValue h hbang hequals
  refine .positioned (w := fun loc => ⟨loc, n, x, y⟩) ?_ (by simp) hreach hmap
  simp only [hn, Outcome.andThen, hxy]

theorem inputFieldDefinition_yields :
    Yields inputFieldDefinition (InputValue.map g) i c d := by
  obtain ⟨n, m, x, y, hn, hparen, hxy, hreach, hmap⟩ :=
    exists_of_written_inputValue h hbang hequals
  have hnone : m.literal? (bytes "(") = none := Cursor.literal?_eq_none hparen []
  refine .positioned (w := fun loc => ⟨loc, n, x, y⟩) ?_ (by simp) hreach hmap
  simp only [hn, Outcome.andThen, hnone, hxy]

end InputValue

/-- Behind an input value in a list stands a name, a comment or the end of the list. -/
theorem inputValue_listed {item : Rule (InputValue Span)}
    (hitem : ∀ i c d, Written .constant g [.node (.inputValue i)] c d → d.Avoids (· == 0x21) →
      d.Avoids (· == 0x3D) → Yields item (InputValue.map g) i c d) (bound : Nat) :
    Listed .constant g isNameStart item (InputValue.map g) .inputValue
      (fun _ d => d.Avoids (· == 0x21) ∧ d.Avoids (· == 0x3D)) bound where
  yields i c d _ h hd := hitem i c d h hd.1 hd.2
  starts _ _ _ h := starts_of_name (Written.single_iff.mp h).2.2
  inner _ := id
  follow _ _ h := ⟨h.avoids_byte rfl, h.avoids_byte rfl⟩
  apart := rfl

theorem argumentsDefinition_needs : Needs (· == 0x28) argumentsDefinition :=
  Needs.literal "(" rfl fun c hc => by simp only [argumentsDefinition, hc]

theorem argumentsDefinition_yields {arguments : List (Element L (InputValue L))}
    (h : Written .constant g (Field.argumentParts (some arguments)) c d) :
    ∃ xs m, argumentsDefinition c = .matched xs m ∧
      xs.map (Element.map g (InputValue.map g)) = arguments ∧ m.skipTrivia = d.skipTrivia := by
  obtain ⟨e, hopen, -⟩ := Written.mark_iff.mp h
  have hlisted := inputValue_listed (g := g) fun i c d => inputValueDefinition_yields
  obtain ⟨xs, m, hxs, hmap, hskip, -⟩ := enclosed_yields hlisted inputValueDefinition_needs
    (fun e m hm => ⟨hm.avoids rfl, fun _ => ⟨hm.avoids rfl, hm.avoids rfl⟩⟩) h
  refine ⟨xs, m, ?_, hmap, hskip⟩
  simp only [argumentsDefinition, literal?_of_reads hopen, hxs]

theorem fieldDefinition_needs : Needs isNameStart fieldDefinition :=
  (memberName_needs.andThen _).positioned

theorem optionalArguments_yields {arguments : Option (List (Element L (InputValue L)))}
    {ps : List (Part L)} (h : Written .constant g (Field.argumentParts arguments) c d)
    (hd : Written .constant g (.mark ":" :: ps) d e) :
    ∃ xs m, optional argumentsDefinition c = .matched xs m ∧
      xs.map (List.map (Element.map g (InputValue.map g))) = arguments ∧
      m.skipTrivia = d.skipTrivia := by
  cases arguments with
  | none =>
    have hcd := Written.nil_iff.mp h
    obtain ⟨m, hcolon, -⟩ := Written.mark_iff.mp hd
    have hnone : argumentsDefinition c = .noMatch c :=
      argumentsDefinition_needs c ((hcolon.congr hcd.symm).avoids rfl)
    exact ⟨none, c, by simp only [optional, hnone], rfl, hcd⟩
  | some arguments =>
    obtain ⟨xs, m, hxs, rfl, hskip⟩ := argumentsDefinition_yields h
    exact ⟨some xs, m, by simp only [optional, hxs], rfl, hskip⟩

theorem fieldDefinition_yields {field : Field L} (h : Written .constant g [.node (.field field)] c d)
    (hd : d.Avoids (· == 0x21)) : Yields fieldDefinition (Field.map g) field c d := by
  obtain ⟨loc, n, arguments, t⟩ := field
  obtain ⟨-, hloc, hparts⟩ := Written.single_iff.mp h
  obtain ⟨m, hname, hrest⟩ := Written.cons_iff.mp hparts
  obtain ⟨n', hn, rfl⟩ := memberName_yields (hname.congr_left (e := c.skipTrivia) (by simp))
  have hrest' := hrest.congr_left (e := m.skipTrivia) (by simp)
  obtain ⟨m', harguments, htype⟩ := Written.append_iff.mp hrest'
  obtain ⟨xs, e, hxs, rfl, hskip⟩ := optionalArguments_yields harguments htype
  obtain ⟨x, hx, rfl⟩ := memberType_yields (htype.congr_left hskip.symm) hd
  refine .positioned (w := fun loc => ⟨loc, n', xs, x⟩) ?_ (by simp) hparts.reaches ?_
  · simp only [hn, Outcome.andThen, hxs, hx, Outcome.map]
  · rw [Field.map, ← hloc]
    rfl

/-- Behind a field in a list stands a name, a comment or the end of the list. -/
theorem field_listed (bound : Nat) :
    Listed .constant g isNameStart fieldDefinition (Field.map g) .field
      (fun _ d => d.Avoids (· == 0x21)) bound where
  yields _ _ _ _ h hd := fieldDefinition_yields h hd
  starts _ _ _ h := starts_of_name (Written.single_iff.mp h).2.2
  inner _ := id
  follow _ _ h := h.avoids_byte rfl
  apart := rfl

theorem enumValueDefinition_needs : Needs isNameStart enumValueDefinition :=
  (name_needs.map _).positioned

theorem enumValueDefinition_yields {a : EnumMember L}
    (h : Written k g [.node (.enumMember a)] c d) :
    Yields enumValueDefinition (EnumMember.map g) a c d := by
  obtain ⟨hfree, hloc, hparts⟩ := Written.single_iff.mp h
  obtain ⟨n, hn, hname⟩ := name_yields hfree (hparts.congr_left (e := c.skipTrivia) (by simp))
  refine .positioned (w := fun loc => ⟨loc, n⟩) (by rw [hn]; rfl) (by simp) hparts.reaches ?_
  rw [EnumMember.map, hname, ← hloc]
  rfl

theorem enumMember_listed (bound : Nat) :
    Listed k g isNameStart enumValueDefinition (EnumMember.map g) .enumMember (fun _ _ => True)
      bound where
  yields _ _ _ _ h _ := enumValueDefinition_yields h
  starts _ _ _ h := starts_of_name (Written.single_iff.mp h).2.2
  inner _ := id
  follow _ _ _ := trivial
  apart := rfl

theorem namedType_listed (bound : Nat) :
    Listed k g isNameStart namedType (NamedType.map g) (fun t => .type (.named t))
      (fun _ _ => True) bound where
  yields _ _ _ _ h _ := namedType_yields h
  starts _ _ _ h := starts_of_namedType h
  inner _ := id
  follow _ _ _ := trivial
  apart := rfl

theorem keyword?_of_reads {s : Bytes} (h : (Token.word s).Reads c d) : c.keyword? s = some d :=
  (Token.keyword?_eq_some_iff h.2.1).mpr h

theorem needs_keyword {rule : Rule (Span → α)} {b : UInt8} {s : Bytes} (w : String)
    (hw : bytes w = b :: s) : Needs (· == b) (positioned (afterKeyword (bytes w) rule)) := by
  refine Needs.positioned fun c hc => ?_
  rw [afterKeyword, hw, Cursor.keyword?_eq_none hc]

/-- Where another word stands a definition does not match. -/
theorem noMatch_of_word {rule : Rule (Span → α)} {s : Bytes} (w : String)
    (hw : IsIdentifier (bytes w)) (h : (Token.word s).Reads c d) (hne : s ≠ bytes w) :
    positioned (afterKeyword (bytes w) rule) c = .noMatch c := by
  apply positioned_of_noMatch (d := c.skipTrivia)
  rw [afterKeyword, Token.keyword?_eq_none_of_ne hw (h.congr (by simp)) hne]

theorem block_yields {item : Rule α} {ofMember : β → Node L} {Follow : β → Cursor → Prop}
    {es : List (Element L β)}
    (hl : ∀ bound, Listed k g isNameStart item f ofMember Follow bound)
    (hneeds : Needs isNameStart item)
    (hclosing : ∀ e m b, (Token.mark (bytes "\x7d")).Reads e m → Follow b e)
    (h : Written k g (Element.blockParts ofMember es) c d) :
    ∃ xs m, block item c = .matched xs m ∧ xs.map (Element.map g f) = es ∧
      m.skipTrivia = d.skipTrivia ∧ c.skipTrivia.Reaches m :=
  enclosed_yields hl hneeds (fun e m hm => ⟨hm.avoids rfl, fun b => hclosing e m b hm⟩) h

theorem fieldBlock_yields {fields : List (Element L (Field L))}
    (h : Written .constant g (Element.blockParts .field fields) c d) :
    ∃ xs m, block fieldDefinition c = .matched xs m ∧
      xs.map (Element.map g (Field.map g)) = fields ∧ m.skipTrivia = d.skipTrivia ∧
      c.skipTrivia.Reaches m :=
  block_yields field_listed fieldDefinition_needs (fun _ _ _ hm => hm.avoids rfl) h

theorem implementsInterfaces_yields {m : Cursor} {interfaces : List (Element L (NamedType L))}
    {fields : List (Element L (Field L))} (hword : (Token.word (bytes "implements")).Reads c m)
    (h : Written .constant g (Element.parts (fun t => .type (.named t)) interfaces ++
      Element.blockParts .field fields) m d) :
    ∃ xs e, implementsInterfaces c = .matched xs e.skipTrivia ∧
      xs.map (Element.map g (NamedType.map g)) = interfaces ∧
      c.skipTrivia.Reaches e.skipTrivia ∧
      Written .constant g (Element.blockParts .field fields) e d := by
  obtain ⟨e, htypes, hblock⟩ := Written.append_iff.mp h
  obtain ⟨n, hopen, -⟩ := Written.mark_iff.mp hblock
  obtain ⟨xs, n', hxs, hmap, -, hskip⟩ := (namedType_listed _).many_yields namedType_needs htypes
    (hopen.avoids rfl) fun _ _ => trivial
  refine ⟨xs, e, ?_, hmap, (Written.token hword htypes).reaches, hblock⟩
  simp only [implementsInterfaces, afterKeyword, keyword?_of_reads hword, hxs, Outcome.andThen,
    hskip]

/-- The interfaces of an object and the block behind them. -/
theorem interfaces_yields (o : ObjectType L)
    (h : Written .constant g (o.implementsPart ::
      (Element.parts (fun t => .type (.named t)) o.interfaces ++
        Element.blockParts .field o.fields)) c d) :
    ∃ xs m, optional implementsInterfaces c = .matched xs m ∧
      (xs.getD []).map (Element.map g (NamedType.map g)) = o.interfaces ∧
      c.skipTrivia.Reaches m.skipTrivia ∧
      Written .constant g (Element.blockParts .field o.fields) m d := by
  obtain ⟨loc, n, interfaces, fields⟩ := o
  have kept {m : Cursor} (hword : (Token.word (bytes "implements")).Reads c m)
      (hrest : Written .constant g (Element.parts (fun t => .type (.named t)) interfaces ++
        Element.blockParts .field fields) m d) :
      ∃ xs m, optional implementsInterfaces c = .matched xs m ∧
        (xs.getD []).map (Element.map g (NamedType.map g)) = interfaces ∧
        c.skipTrivia.Reaches m.skipTrivia ∧
        Written .constant g (Element.blockParts .field fields) m d := by
    obtain ⟨xs, e, hxs, hmap, hreach, hblock⟩ := implementsInterfaces_yields hword hrest
    refine ⟨some xs, e.skipTrivia, by simp only [optional, hxs], hmap, ?_, ?_⟩
    · rwa [Cursor.skipTrivia_skipTrivia]
    · exact hblock.congr_left (by simp)
  cases interfaces with
  | nil =>
    rcases Written.optional_iff.mp h with hblock | ⟨m, hword, hrest⟩
    · obtain ⟨m, hopen, -⟩ := Written.mark_iff.mp hblock
      have hnone : implementsInterfaces c = .noMatch c := by
        have hkeyword : c.keyword? (bytes "implements") = none :=
          Cursor.keyword?_eq_none (hopen.avoids rfl) _
        simp only [implementsInterfaces, afterKeyword, hkeyword]
      exact ⟨none, c, by simp only [optional, hnone], rfl, .refl _, hblock⟩
    · exact kept hword hrest
  | cons t ts =>
    obtain ⟨m, hword, hrest⟩ := Written.word_iff.mp h
    exact kept hword hrest

theorem objectTypeDefinition_yields {o : ObjectType L}
    (h : Written .constant g [.node (.definition (.object o))] c d) :
    Yields objectTypeDefinition (ObjectType.map g) o c d := by
  obtain ⟨hfree, hloc, hparts⟩ := Written.single_iff.mp h
  obtain ⟨m, hword, hrest⟩ := Written.word_iff.mp hparts
  obtain ⟨m', hname, hrest'⟩ := Written.cons_iff.mp hrest
  obtain ⟨n, hn, hnmap⟩ := name_yields hfree hname
  obtain ⟨xs, e, hxs, hxmap, hreach, hblock⟩ :=
    interfaces_yields o (hrest'.congr_left (e := m'.skipTrivia) (by simp))
  obtain ⟨ys, e', hys, hymap, hskip, hreach'⟩ := fieldBlock_yields hblock
  rw [Cursor.skipTrivia_skipTrivia] at hreach
  refine .positioned (w := fun loc => ⟨loc, n, xs.getD [], ys⟩) ?_ hskip
    (((Written.token hword hname).reaches.trans hreach).trans hreach') ?_
  · simp only [afterKeyword, keyword?_of_reads (hword.congr (e := c.skipTrivia) (by simp)), hn,
      Outcome.require, Outcome.andThen, hxs, hys, Outcome.map]
  · rw [ObjectType.map, hnmap, hxmap, hymap, ← hloc]
    rfl

theorem definitionName_yields {n : Name L} (hn : n.IsFree) (h : Written k g [.name n] c d) :
    Yields definitionName (Name.map g) n c d := by
  obtain ⟨x, hx, hmap⟩ := name_yields hn h
  exact ⟨x, by simp only [definitionName, hx, Outcome.require], hmap⟩

/-- A definition that is a keyword, a name and a block. -/
theorem blockDefinition_yields {item : Rule α} {ofMember : β → Node L} {n : Name L}
    {es : List (Element L β)} {t : Definition L} (w : String)
    (make : Span → Name Span → List (Element Span α) → Definition Span)
    (hblock : ∀ c d, Written .constant g (Element.blockParts ofMember es) c d →
      ∃ xs m, block item c = .matched xs m ∧ xs.map (Element.map g f) = es ∧
        m.skipTrivia = d.skipTrivia ∧ c.skipTrivia.Reaches m)
    (hparts : t.parts = .word w :: .name n :: Element.blockParts ofMember es) (hn : n.IsFree)
    (hmake : ∀ loc x xs, g loc = t.loc → x.map g = n → xs.map (Element.map g f) = es →
      (make loc x xs).map g = t)
    (h : Written .constant g [.node (.definition t)] c d) :
    Yields (positioned <| afterKeyword (bytes w) fun c => (definitionName c).andThen fun x next =>
      (block item next).map fun xs loc => make loc x xs) (Definition.map g) t c d := by
  obtain ⟨-, hloc, hwritten⟩ := Written.single_iff.mp h
  rw [Node.parts, hparts] at hwritten
  obtain ⟨m, hword, hrest⟩ := Written.word_iff.mp hwritten
  obtain ⟨m', hname, hrest'⟩ := Written.cons_iff.mp hrest
  obtain ⟨x, hx, hxmap⟩ := definitionName_yields hn hname
  obtain ⟨xs, e, hxs, hxsmap, hskip, hreach⟩ :=
    hblock _ _ (hrest'.congr_left (e := m'.skipTrivia) (by simp))
  rw [Cursor.skipTrivia_skipTrivia] at hreach
  refine .positioned (w := fun loc => make loc x xs) ?_ hskip
    ((Written.token hword hname).reaches.trans hreach) (hmake _ x xs hloc.symm hxmap hxsmap)
  simp only [afterKeyword, keyword?_of_reads (hword.congr (e := c.skipTrivia) (by simp)), hx,
    Outcome.andThen, hxs, Outcome.map]

section

variable {loc : L} {n : Name L}

theorem interfaceTypeDefinition_yields {fields : List (Element L (Field L))}
    (h : Written .constant g [.node (.definition (.interface loc n fields))] c d) :
    Yields interfaceTypeDefinition (Definition.map g) (.interface loc n fields) c d := by
  refine blockDefinition_yields "interface" .interface (fun c d => fieldBlock_yields) rfl
    (Written.single_iff.mp h).1 ?_ h
  rintro _ _ _ rfl rfl rfl
  rfl

theorem enumTypeDefinition_yields {members : List (Element L (EnumMember L))}
    (h : Written .constant g [.node (.definition (.enum loc n members))] c d) :
    Yields enumTypeDefinition (Definition.map g) (.enum loc n members) c d := by
  refine blockDefinition_yields "enum" .enum
    (fun c d => block_yields enumMember_listed enumValueDefinition_needs fun _ _ _ _ => trivial) rfl
    (Written.single_iff.mp h).1 ?_ h
  rintro _ _ _ rfl rfl rfl
  rfl

theorem inputObjectTypeDefinition_yields {fields : List (Element L (InputValue L))}
    (h : Written .constant g [.node (.definition (.input loc n fields))] c d) :
    Yields inputObjectTypeDefinition (Definition.map g) (.input loc n fields) c d := by
  have hlisted := inputValue_listed (g := g) fun i c d => inputFieldDefinition_yields
  refine blockDefinition_yields "input" .input
    (fun c d => block_yields hlisted inputFieldDefinition_needs
      fun _ _ _ hm => ⟨hm.avoids rfl, hm.avoids rfl⟩) rfl
    (Written.single_iff.mp h).1 ?_ h
  rintro _ _ _ rfl rfl rfl
  rfl

theorem scalarTypeDefinition_yields
    (h : Written .constant g [.node (.definition (.scalar loc n))] c d) :
    Yields scalarTypeDefinition (Definition.map g) (.scalar loc n) c d := by
  obtain ⟨hfree, hloc, hparts⟩ := Written.single_iff.mp h
  obtain ⟨m, hword, hname⟩ := Written.word_iff.mp hparts
  obtain ⟨x, hx, rfl⟩ := definitionName_yields hfree hname
  refine .positioned (w := fun loc => .scalar loc x) ?_ (by simp) hparts.reaches ?_
  · simp only [afterKeyword, keyword?_of_reads (hword.congr (e := c.skipTrivia) (by simp)), hx,
      Outcome.map, Outcome.andThen]
  · rw [Definition.map, ← hloc]
    rfl

theorem typeExtensionDefinition_yields {o : ObjectType L}
    (h : Written .constant g [.node (.definition (.extension loc o))] c d) :
    Yields typeExtensionDefinition (Definition.map g) (.extension loc o) c d := by
  obtain ⟨-, hloc, hparts⟩ := Written.single_iff.mp h
  obtain ⟨m, hword, hobject⟩ := Written.word_iff.mp hparts
  obtain ⟨x, hx, rfl⟩ := objectTypeDefinition_yields hobject
  refine .positioned (w := fun loc => .extension loc x) ?_ (by simp) hparts.reaches ?_
  · simp only [afterKeyword, keyword?_of_reads (hword.congr (e := c.skipTrivia) (by simp)), hx,
      Outcome.require, Outcome.map, Outcome.andThen]
  · rw [Definition.map, ← hloc]
    rfl

theorem unionMember_yields {t : NamedType L} (h : Written k g [.type (.named t)] c d) :
    Yields unionMember (NamedType.map g) t c d := by
  obtain ⟨x, hx, hmap⟩ := namedType_yields h
  exact ⟨x, by simp only [unionMember, hx, Outcome.require], hmap⟩

theorem unionMembersWithin_yields {fuel : Nat} {ts : List (NamedType L)}
    (h : Written k g (ts.flatMap fun t => [.mark "|", .type (.named t)]) c d)
    (hd : d.Avoids (· == 0x7C)) (hc : c.skipTrivia.rest.length < fuel) :
    Yields (unionMembersWithin fuel) (List.map (NamedType.map g)) ts c.skipTrivia d := by
  induction ts generalizing c fuel with
  | nil =>
    have hcd := Written.nil_iff.mp h
    obtain ⟨fuel, rfl⟩ : ∃ n, fuel = n + 1 := ⟨fuel - 1, by omega⟩
    have hnone : c.skipTrivia.literal? (bytes "|") = none :=
      Cursor.literal?_eq_none (hd.congr (hcd.symm.trans (by simp))) []
    refine ⟨[], ?_, rfl⟩
    rw [unionMembersWithin, hnone, hcd]
  | cons t ts ih =>
    obtain ⟨fuel, rfl⟩ : ∃ n, fuel = n + 1 := ⟨fuel - 1, by omega⟩
    rw [List.flatMap_cons] at h
    obtain ⟨e, hmember, hrest⟩ := Written.append_iff.mp h
    obtain ⟨m, hbar, htype⟩ := Written.mark_iff.mp hmember
    have hbar := hbar.congr (e := c.skipTrivia) (by simp)
    have hlt := hbar.length_lt
    have hle := (m.reaches_skipTrivia.trans htype.reaches).length_le
    have hleft : e.skipTrivia.rest.length < fuel := by omega
    obtain ⟨x, hx, rfl⟩ := unionMember_yields htype
    obtain ⟨xs, hxs, rfl⟩ := ih hrest hleft
    refine ⟨x :: xs, ?_, rfl⟩
    simp only [unionMembersWithin, literal?_of_reads hbar, hx, Outcome.andThen, hxs, Outcome.map]

theorem unionTypeDefinition_yields {members : List (NamedType L)}
    (h : Written .constant g [.node (.definition (.union loc n members))] c d)
    (hd : d.Avoids (· == 0x7C)) :
    Yields unionTypeDefinition (Definition.map g) (.union loc n members) c d := by
  obtain ⟨⟨hfree, hne⟩, hloc, hparts⟩ := Written.single_iff.mp h
  obtain ⟨t, ts, rfl⟩ := List.exists_cons_of_ne_nil hne
  rw [Node.parts, Definition.parts, NamedType.unionParts_cons] at hparts
  obtain ⟨m, hword, hrest⟩ := Written.word_iff.mp hparts
  obtain ⟨m', hname, hrest'⟩ := Written.cons_iff.mp hrest
  obtain ⟨e, hequals, hmembers⟩ := Written.mark_iff.mp hrest'
  obtain ⟨e', hfirst, hothers⟩ := Written.cons_iff.mp hmembers
  obtain ⟨x, hx, rfl⟩ := definitionName_yields hfree hname
  obtain ⟨y, hy, rfl⟩ := unionMember_yields hfirst
  obtain ⟨ys, hys, rfl⟩ := unionMembersWithin_yields hothers hd
    (Nat.lt_succ_self _)
  refine .positioned (w := fun loc => .union loc x (y :: ys)) ?_ (by simp) hparts.reaches ?_
  · simp only [afterKeyword, keyword?_of_reads (hword.congr (e := c.skipTrivia) (by simp)), hx,
      Outcome.andThen, expect_of_reads (hequals.congr (e := m'.skipTrivia) (by simp)), hy, hys,
      Outcome.map]
  · rw [Definition.map, ← hloc]
    rfl

end

/-- What may stand behind a definition: a union would go on with a bar. -/
def definitionFollow : Definition L → Cursor → Prop
  | .union _ _ _, d => d.Avoids (· == 0x7C)
  | _, _ => True

theorem definition_needs : Needs isNameStart definition := by
  have byte (b : UInt8) (hb : isNameStart b = true) (x : UInt8) (hx : (x == b) = true) :
      isNameStart x = true := by
    rw [eq_of_beq hx]
    exact hb
  exact (((needs_keyword "type" rfl).mono (byte _ rfl)).map _).orElse <|
    ((needs_keyword "interface" rfl).mono (byte _ rfl)).orElse <|
    ((needs_keyword "union" rfl).mono (byte _ rfl)).orElse <|
    ((needs_keyword "scalar" rfl).mono (byte _ rfl)).orElse <|
    ((needs_keyword "enum" rfl).mono (byte _ rfl)).orElse <|
    ((needs_keyword "input" rfl).mono (byte _ rfl)).orElse <|
    (needs_keyword "extend" rfl).mono (byte _ rfl)

theorem starts_of_definition {t : Definition L}
    (h : Written k g [.node (.definition t)] c d) : c.Starts isNameStart := by
  obtain ⟨-, -, hparts⟩ := Written.single_iff.mp h
  cases t <;> exact (Written.word_iff.mp hparts).choose_spec.1.starts rfl

theorem definition_yields {t : Definition L}
    (h : Written .constant g [.node (.definition t)] c d) (hd : definitionFollow t d) :
    Yields definition (Definition.map g) t c d := by
  obtain ⟨-, -, hparts⟩ := Written.single_iff.mp h
  have noObject {s : Bytes} {m : Cursor} (hm : (Token.word s).Reads c m) (hs : s ≠ bytes "type") :
      (objectTypeDefinition c).map Definition.object = .noMatch c := by
    rw [objectTypeDefinition, noMatch_of_word "type" (by decide) hm hs]
    rfl
  cases t with
  | object o =>
    obtain ⟨x, hx, rfl⟩ := objectTypeDefinition_yields h
    exact .orElse_left ⟨.object x, by simp only [hx]; rfl, rfl⟩
  | interface loc n fields =>
    obtain ⟨m, hm, -⟩ := Written.word_iff.mp hparts
    exact .orElse_right (noObject hm (by decide)) <|
      .orElse_left (interfaceTypeDefinition_yields h)
  | union loc n members =>
    obtain ⟨m, hm, -⟩ := Written.word_iff.mp hparts
    exact .orElse_right (noObject hm (by decide)) <|
      .orElse_right (noMatch_of_word "interface" (by decide) hm (by decide)) <|
      .orElse_left (unionTypeDefinition_yields h hd)
  | scalar loc n =>
    obtain ⟨m, hm, -⟩ := Written.word_iff.mp hparts
    exact .orElse_right (noObject hm (by decide)) <|
      .orElse_right (noMatch_of_word "interface" (by decide) hm (by decide)) <|
      .orElse_right (noMatch_of_word "union" (by decide) hm (by decide)) <|
      .orElse_left (scalarTypeDefinition_yields h)
  | enum loc n members =>
    obtain ⟨m, hm, -⟩ := Written.word_iff.mp hparts
    exact .orElse_right (noObject hm (by decide)) <|
      .orElse_right (noMatch_of_word "interface" (by decide) hm (by decide)) <|
      .orElse_right (noMatch_of_word "union" (by decide) hm (by decide)) <|
      .orElse_right (noMatch_of_word "scalar" (by decide) hm (by decide)) <|
      .orElse_left (enumTypeDefinition_yields h)
  | input loc n fields =>
    obtain ⟨m, hm, -⟩ := Written.word_iff.mp hparts
    exact .orElse_right (noObject hm (by decide)) <|
      .orElse_right (noMatch_of_word "interface" (by decide) hm (by decide)) <|
      .orElse_right (noMatch_of_word "union" (by decide) hm (by decide)) <|
      .orElse_right (noMatch_of_word "scalar" (by decide) hm (by decide)) <|
      .orElse_right (noMatch_of_word "enum" (by decide) hm (by decide)) <|
      .orElse_left (inputObjectTypeDefinition_yields h)
  | extension loc o =>
    obtain ⟨m, hm, -⟩ := Written.word_iff.mp hparts
    exact .orElse_right (noObject hm (by decide)) <|
      .orElse_right (noMatch_of_word "interface" (by decide) hm (by decide)) <|
      .orElse_right (noMatch_of_word "union" (by decide) hm (by decide)) <|
      .orElse_right (noMatch_of_word "scalar" (by decide) hm (by decide)) <|
      .orElse_right (noMatch_of_word "enum" (by decide) hm (by decide)) <|
      .orElse_right (noMatch_of_word "input" (by decide) hm (by decide)) <|
      typeExtensionDefinition_yields h

theorem definition_listed (bound : Nat) :
    Listed .constant g isNameStart definition (Definition.map g) .definition definitionFollow
      bound where
  yields _ _ _ _ h hd := definition_yields h hd
  starts _ _ _ h := starts_of_definition h
  inner _ := id
  follow t _ h := by
    cases t with
    | union loc n members => exact h.avoids_byte rfl
    | _ => trivial
  apart := rfl

end SchemaDoc.Grammar
