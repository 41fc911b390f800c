import SchemaDoc.Proofs.Grammar.Outcome
import SchemaDoc.Proofs.Layout.Placement
import SchemaDoc.Proofs.Syntax.Map

/-! # What is written is matched: names, types and lists

Where a tree is written, the rule for it matches and yields the tree. A rule only
looks at the next character to see that it does not match, and behind what it
matches only at characters that could go on with it.
-/

namespace SchemaDoc.Grammar

variable {L : Type} {α β : Type} {k : Constancy} {g : Span → L} {ps : List (Part L)}
  {p : UInt8 → Bool} {c d e m : Cursor} {f : α → β} {b : β}

/-- The rule does not match unless the next character has the property `p`. -/
def Needs (p : UInt8 → Bool) (rule : Rule α) : Prop := ∀ c, c.Avoids p → rule c = .noMatch c

/-- The rule matches from `c` up to what follows behind `d`, and what it yields is mapped to `b`. -/
def Yields (rule : Rule α) (f : α → β) (b : β) (c d : Cursor) : Prop :=
  ∃ a, rule c = .matched a d.skipTrivia ∧ f a = b

theorem Needs.positioned {rule : Rule (Span → α)} (h : Needs p rule) : Needs p (positioned rule) :=
  fun c hc => positioned_of_noMatch (h c.skipTrivia (Cursor.avoids_skipTrivia.mpr hc))

theorem Needs.lexeme {l : Lexeme} {rule : Rule α}
    (h : ∀ c, c.lexeme? l = none → rule c = .noMatch c) : Needs l.starts rule :=
  fun c hc => h c (Cursor.lexeme?_eq_none hc)

theorem Needs.literal {x : UInt8} {rule : Rule α} (s : String) (hs : bytes s = [x])
    (h : ∀ c, c.literal? (bytes s) = none → rule c = .noMatch c) : Needs (· == x) rule :=
  fun c hc => h c (by rw [hs]; exact Cursor.literal?_eq_none hc [])

theorem Needs.mono {q : UInt8 → Bool} {rule : Rule α} (h : Needs p rule)
    (hpq : ∀ b, p b = true → q b = true) : Needs q rule :=
  fun c hc => h c (Stops.mono hc hpq)

theorem Needs.map {rule : Rule α} (h : Needs p rule) (f : α → β) :
    Needs p fun c => (rule c).map f := by
  intro c hc
  simp [h c hc, Outcome.map, Outcome.andThen]

theorem Needs.andThen {rule : Rule α} (h : Needs p rule) (f : α → Cursor → Outcome β) :
    Needs p fun c => (rule c).andThen f := by
  intro c hc
  simp [h c hc, Outcome.andThen]

/-- A rule between trivia yields a node with the span of what its inner rule matches. -/
theorem Yields.positioned {rule : Rule (Span → α)} {w : Span → α}
    (h : rule c.skipTrivia = .matched w m) (hm : m.skipTrivia = d.skipTrivia)
    (hc : c.skipTrivia.Reaches m) (hw : f (w (c.spanTo d)) = b) :
    Yields (positioned rule) f b c d := by
  refine ⟨w (c.spanTo d), ?_, hw⟩
  rw [positioned_of_matched h hc, hm, Cursor.spanTo_congr_right hm]

theorem literal?_of_reads {s : Bytes} (h : (Token.mark s).Reads c d) : c.literal? s = some d :=
  (Token.literal?_eq_some_iff h.2).mpr h

theorem expect_of_reads {s : Bytes} (h : (Token.mark s).Reads c d) :
    expect s c = .matched () d := by
  rw [expect, literal?_of_reads h]

theorem comment_needs : Needs (· == 0x23) comment :=
  (Needs.lexeme (l := .comment) fun c hc => by simp only [hc]).positioned

theorem comment_yields {a : Comment L} (h : Written k g [.node (.comment a)] c d) :
    Yields comment (Comment.map g) a c d := by
  obtain ⟨-, hloc, hparts⟩ := Written.single_iff.mp h
  obtain ⟨m, hm, hd⟩ := Written.token_iff.mp hparts
  have hl := Token.lexeme?_comment_eq_some_iff.mpr (hm.congr (e := c.skipTrivia) (by simp))
  refine .positioned (w := fun loc => ⟨loc, a.text⟩) (by simp only [hl]) (Written.nil_iff.mp hd)
    ⟨_, hm.1⟩ ?_
  rw [Comment.map, ← hloc]
  rfl

theorem starts_of_comment {a : Comment L} (h : Written k g [.node (.comment a)] c d) :
    c.Starts (· == 0x23) := by
  obtain ⟨-, -, hparts⟩ := Written.single_iff.mp h
  obtain ⟨m, hm, -⟩ := Written.token_iff.mp hparts
  obtain ⟨s, hs, -⟩ := hm.2.1
  exact hm.starts (by simp [Token.text, hs])

theorem Outcome.map_nil_append (o : Outcome (List α)) : o.map ([] ++ ·) = o := by
  cases o <;> rfl

theorem Outcome.map_append_map (xs ys : List α) (o : Outcome (List α)) :
    (o.map (ys ++ ·)).map (xs ++ ·) = o.map (xs ++ ys ++ ·) := by
  cases o <;> simp [Outcome.map, Outcome.andThen]

/-- What a list relies on: members are yielded where they are written, as long as less than `bound`
bytes are left and what stands behind them admits it, and their first bytes have the property `p`. -/
structure Listed (k : Constancy) (g : Span → L) (p : UInt8 → Bool) (item : Rule α) (f : α → β)
    (ofMember : β → Node L) (Follow : β → Cursor → Prop) (bound : Nat) : Prop where
  yields : ∀ b c d, c.rest.length < bound → Written k g [.node (ofMember b)] c d → Follow b d →
    Yields item f b c d
  starts : ∀ b c d, Written k g [.node (ofMember b)] c d → c.Starts p
  inner : ∀ b, ¬ (ofMember b).IsDocument
  follow : ∀ b c, c.Starts (fun x => p x || x == 0x23) → Follow b c
  apart : p 0x23 = false

namespace Listed

variable {item : Rule α} {ofMember : β → Node L} {Follow : β → Cursor → Prop} {bound fuel : Nat}
  {es : List (Element L β)}

theorem element_starts (hl : Listed k g p item f ofMember Follow bound) {e : Element L β}
    (h : Written k g [.node (e.node ofMember)] c d) :
    c.Starts fun x => p x || x == 0x23 := by
  cases e with
  | comment a => exact (starts_of_comment h).mono fun x hx => by simp [hx]
  | member b => exact (hl.starts b c d h).mono fun x hx => by simp [hx]

theorem element_length_lt (hl : Listed k g p item f ofMember Follow bound) {e : Element L β}
    (h : Written k g [.node (e.node ofMember)] c d) :
    d.skipTrivia.rest.length < c.rest.length := by
  have hlt : d.skipTrivia.rest.length < c.skipTrivia.rest.length := by
    cases e with
    | comment a => exact h.length_lt id
    | member b => exact h.length_lt (hl.inner b)
  exact Nat.lt_of_lt_of_le hlt c.reaches_skipTrivia.length_le

/-- The first element of a list is taken, and the list goes on behind it. -/
theorem manyWithin_cons (hl : Listed k g p item f ofMember Follow bound) (fuel : Nat)
    {e : Element L β}
    (h : Written k g [.node (e.node ofMember)] c d) (hbound : c.rest.length < bound)
    (hfollow : ∀ b, e = .member b → Follow b d) :
    ∃ x, Element.map g f x = e ∧
      manyWithin (fun found => .ok (.comment found)) item .member (fuel + 1) c =
        (manyWithin (fun found => .ok (.comment found)) item .member fuel d.skipTrivia).map
          ([x] ++ ·) := by
  cases e with
  | comment a =>
    obtain ⟨x, hx, rfl⟩ := comment_yields h
    refine ⟨.comment x, rfl, ?_⟩
    simp only [manyWithin, hx]
    rfl
  | member b =>
    have hnone : comment c = .noMatch c :=
      comment_needs c ((hl.starts b c d h).avoids_byte hl.apart)
    obtain ⟨x, hx, rfl⟩ := hl.yields b c d hbound h (hfollow b rfl)
    refine ⟨.member x, rfl, ?_⟩
    simp only [manyWithin, hnone, hx]
    rfl

/-- A list takes the elements that are written and goes on behind them. -/
theorem manyWithin_append (hl : Listed k g p item f ofMember Follow bound)
    (h : Written k g (Element.parts ofMember es) c d) (hbound : c.rest.length < bound)
    (hfuel : c.rest.length < fuel) (hlast : ∀ b, es.getLast? = some (.member b) → Follow b d) :
    ∃ xs m left, xs.map (Element.map g f) = es ∧ c.Reaches m ∧ m.skipTrivia = d.skipTrivia ∧
      (c.skipTrivia = c → m.skipTrivia = m) ∧ m.rest.length < left ∧
      manyWithin (fun found => .ok (.comment found)) item .member fuel c =
        (manyWithin (fun found => .ok (.comment found)) item .member left m).map (xs ++ ·) := by
  induction es generalizing c fuel with
  | nil =>
    refine ⟨[], c, fuel, rfl, .refl c, Written.nil_iff.mp h, id, hfuel, ?_⟩
    rw [Outcome.map_nil_append]
  | cons e es ih =>
    obtain ⟨n, hn, hrest, hfollow⟩ : ∃ n, Written k g [.node (e.node ofMember)] c n ∧
        Written k g (Element.parts ofMember es) n d ∧ ∀ b, e = .member b → Follow b n := by
      obtain ⟨n, hn, hrest⟩ := Written.cons_iff.mp h
      cases es with
      | nil =>
        refine ⟨d, hn.congr_right (Written.nil_iff.mp hrest), .nil rfl, ?_⟩
        rintro b rfl
        exact hlast b rfl
      | cons e' es =>
        obtain ⟨n', hn', -⟩ := Written.cons_iff.mp hrest
        exact ⟨n, hn, hrest, fun b _ => hl.follow b n (hl.element_starts hn')⟩
    obtain ⟨fuel, rfl⟩ : ∃ n, fuel = n + 1 := ⟨fuel - 1, by omega⟩
    have hlt := hl.element_length_lt hn
    have hleft : n.skipTrivia.rest.length < fuel := by omega
    obtain ⟨x, rfl, hx⟩ := hl.manyWithin_cons fuel hn hbound hfollow
    have hlast' : ∀ b, es.getLast? = some (.member b) → Follow b d := by
      intro b hb
      exact hlast b (by rw [List.getLast?_cons, hb]; rfl)
    obtain ⟨xs, m, left, rfl, hreach, hskip, hself, hleft, hxs⟩ :=
      ih (hrest.congr_left (e := n.skipTrivia) (by simp)) (by omega) hleft hlast'
    refine ⟨x :: xs, m, left, rfl, ?_, hskip, fun _ => hself (by simp), hleft, ?_⟩
    · exact (c.reaches_skipTrivia.trans hn.reaches).trans hreach
    · rw [hx, hxs, Outcome.map_append_map]
      rfl

/-- A list takes the elements that are written, and nothing behind them. -/
theorem many_yields (hl : Listed k g p item f ofMember Follow (c.rest.length + 1))
    (hneeds : Needs p item) (h : Written k g (Element.parts ofMember es) c d)
    (hend : d.Avoids fun x => p x || x == 0x23)
    (hlast : ∀ b, es.getLast? = some (.member b) → Follow b d) :
    ∃ xs m, many item c = .matched xs m ∧ xs.map (Element.map g f) = es ∧ c.Reaches m ∧
      m.skipTrivia = d.skipTrivia := by
  obtain ⟨xs, m, left, hxs, hreach, hskip, -, hleft, hmany⟩ :=
    hl.manyWithin_append h (Nat.lt_succ_self _) (Nat.lt_succ_self _) hlast
  have hm := hend.congr hskip.symm
  have hcomment : comment m = .noMatch m :=
    comment_needs m (Stops.mono hm fun x hx => by simp_all)
  have hitem : item m = .noMatch m := hneeds m (Stops.mono hm fun x hx => by simp_all)
  obtain ⟨left, rfl⟩ : ∃ n, left = n + 1 := ⟨left - 1, by omega⟩
  refine ⟨xs, m, ?_, hxs, hreach, hskip⟩
  rw [many, hmany]
  simp only [manyWithin, hcomment, hitem, Outcome.map, Outcome.andThen, List.append_nil]

theorem mono (hl : Listed k g p item f ofMember Follow bound) {n : Nat} (hn : n ≤ bound) :
    Listed k g p item f ofMember Follow n :=
  { hl with yields := fun b c d hc => hl.yields b c d (Nat.lt_of_lt_of_le hc hn) }

/-- A list between two marks is taken with both of them. -/
theorem bracketed_yields {opening closing : String}
    (hl : Listed k g p item f ofMember Follow bound) (hneeds : Needs p item)
    (hc : c.rest.length ≤ bound)
    (hclosing : ∀ e m, (Token.mark (bytes closing)).Reads e m →
      e.Avoids (fun x => p x || x == 0x23) ∧ ∀ b, Follow b e)
    (h : Written k g (.mark opening :: (Element.parts ofMember es ++ [.mark closing])) c d) :
    ∃ m xs n e, c.literal? (bytes opening) = some m ∧ many item m = .matched xs n ∧
      expect (bytes closing) n = .matched () e ∧ xs.map (Element.map g f) = es ∧
      e.skipTrivia = d.skipTrivia ∧ c.skipTrivia.Reaches e := by
  obtain ⟨m, hopen, hrest⟩ := Written.mark_iff.mp h
  obtain ⟨e, helements, hclose⟩ := Written.append_iff.mp hrest
  obtain ⟨m', hclose, hd⟩ := Written.mark_iff.mp hclose
  obtain ⟨hend, hfollow⟩ := hclosing e m' hclose
  have hlt := hopen.length_lt
  obtain ⟨xs, n, hxs, hmap, -, hskip⟩ :=
    (hl.mono (by omega)).many_yields hneeds helements hend fun b _ => hfollow b
  exact ⟨m, xs, n, m', literal?_of_reads hopen, hxs, expect_of_reads (hclose.congr hskip.symm), hmap,
    Written.nil_iff.mp hd, (Written.token hopen helements).reaches_token hclose⟩

end Listed

theorem memberName_needs : Needs isNameStart memberName :=
  (Needs.lexeme (l := .name) fun c hc => by simp only [hc]).positioned

theorem name_needs : Needs isNameStart name :=
  (Needs.lexeme (l := .name) fun c hc => by simp only [hc]).positioned

theorem starts_of_name {n : Name L} (h : Written k g (.name n :: ps) c d) :
    c.Starts isNameStart := by
  obtain ⟨m, -, -, hparts, -⟩ := Written.node_iff.mp h
  obtain ⟨m, hm, -⟩ := Written.token_iff.mp hparts
  have hn : IsIdentifier n.text := hm.2.1
  refine hm.starts ?_
  cases hs : n.text with
  | nil => simp [hs, IsIdentifier] at hn
  | cons b s =>
    rw [hs] at hn
    simp [Token.text, hn.1]

theorem exists_of_written_name {n : Name L} (h : Written k g [.name n] c d) :
    ∃ m, c.skipTrivia.lexeme? .name = some (n.text, m) ∧ m.skipTrivia = d.skipTrivia ∧
      c.skipTrivia.Reaches m ∧ n.loc = g (c.spanTo d) := by
  obtain ⟨-, hloc, hparts⟩ := Written.single_iff.mp h
  obtain ⟨m, hm, hd⟩ := Written.token_iff.mp hparts
  exact ⟨m, Token.lexeme?_name_eq_some_iff.mpr (hm.congr (by simp)), Written.nil_iff.mp hd,
    ⟨_, hm.1⟩, hloc⟩

theorem memberName_yields {n : Name L} (h : Written k g [.name n] c d) :
    Yields memberName (Name.map g) n c d := by
  obtain ⟨m, hl, hm, hreach, hloc⟩ := exists_of_written_name h
  refine .positioned (w := fun loc => ⟨loc, n.text⟩) (by simp only [hl]) hm hreach ?_
  rw [Name.map, ← hloc]

theorem name_yields {n : Name L} (hn : n.IsFree) (h : Written k g [.name n] c d) :
    Yields name (Name.map g) n c d := by
  obtain ⟨m, hl, hm, hreach, hloc⟩ := exists_of_written_name h
  refine .positioned (w := fun loc => ⟨loc, n.text⟩) ?_ hm hreach ?_
  · simp only [hl, show isReserved n.text = false from hn, Bool.false_eq_true, if_false]
  · rw [Name.map, ← hloc]

theorem namedType_needs : Needs isNameStart namedType := (name_needs.map _).positioned

theorem starts_of_namedType {t : NamedType L} (h : Written k g [.type (.named t)] c d) :
    c.Starts isNameStart :=
  starts_of_name (Written.single_iff.mp h).2.2

theorem namedType_yields {t : NamedType L} (h : Written k g [.type (.named t)] c d) :
    Yields namedType (NamedType.map g) t c d := by
  obtain ⟨hfree, hloc, hparts⟩ := Written.single_iff.mp h
  obtain ⟨n, hn, hname⟩ := name_yields hfree (hparts.congr_left (e := c.skipTrivia) (by simp))
  refine .positioned (w := fun loc => ⟨loc, n⟩) (by rw [hn]; rfl) (by simp) hparts.reaches ?_
  rw [NamedType.map, hname, ← hloc]
  rfl

theorem listTypeOf_yields {inner : Rule (TypeRef Span)} {loc : L} {t : TypeRef L} {bound : Nat}
    (hinner : ∀ c d, c.rest.length < bound → Written k g [.type t] c d → d.Avoids (· == 0x21) →
      Yields inner (TypeRef.map g) t c d)
    (hc : c.rest.length ≤ bound) (h : Written k g [.type (.list loc t)] c d) :
    Yields (listTypeOf inner) (TypeRef.map g) (.list loc t) c d := by
  obtain ⟨-, hloc, hparts⟩ := Written.single_iff.mp h
  obtain ⟨m, hopen, hrest⟩ := Written.mark_iff.mp hparts
  obtain ⟨e, htype, hclose⟩ := Written.cons_iff.mp hrest
  obtain ⟨m', hclose, hd⟩ := Written.mark_iff.mp hclose
  have hlt := hopen.length_lt
  have havoid : e.Avoids (· == 0x21) := hclose.avoids rfl
  obtain ⟨x, hx, rfl⟩ := hinner m e (by omega) htype havoid
  refine .positioned (w := fun loc => .list loc x) ?_ (Written.nil_iff.mp hd)
    ((Written.token hopen htype).reaches_token hclose) ?_
  · simp only [literal?_of_reads (hopen.congr (e := c.skipTrivia) (by simp)), hx, Outcome.require,
      Outcome.andThen, Outcome.map, expect_of_reads (hclose.congr (e := e.skipTrivia) (by simp))]
  · rw [TypeRef.map, ← hloc]
    rfl

/-- A type without an exclamation mark, when the types inside a list are read by `inner`. -/
theorem baseType_yields {inner : Rule (TypeRef Span)} {t : TypeRef L} {bound : Nat}
    (hinner : ∀ t c d, c.rest.length < bound → Written k g [.type t] c d → d.Avoids (· == 0x21) →
      Yields inner (TypeRef.map g) t c d)
    (hc : c.rest.length ≤ bound) (ht : t.kind ≠ .nonNullType) (h : Written k g [.type t] c d) :
    Yields (fun c => ((namedType c).map TypeRef.named).orElse fun _ => listTypeOf inner c)
      (TypeRef.map g) t c d := by
  cases t with
  | named t =>
    obtain ⟨x, hx, rfl⟩ := namedType_yields h
    exact ⟨.named x, by simp only [hx]; rfl, rfl⟩
  | list loc t =>
    have hopen := (Written.mark_iff.mp (Written.single_iff.mp h).2.2).choose_spec.1
    have hnone : namedType c = .noMatch c := namedType_needs c (hopen.avoids rfl)
    obtain ⟨x, hx, hmap⟩ := listTypeOf_yields (hinner t) hc h
    exact ⟨x, by simp only [hnone, hx]; rfl, hmap⟩
  | nonNull loc t => exact absurd rfl ht

theorem typeReferenceWithin_yields {fuel : Nat} {t : TypeRef L} (hc : c.rest.length < fuel)
    (h : Written k g [.type t] c d) (hd : d.Avoids (· == 0x21)) :
    Yields (typeReferenceWithin fuel) (TypeRef.map g) t c d := by
  induction fuel generalizing c t d with
  | zero => omega
  | succ fuel ih =>
    have hle := c.reaches_skipTrivia.length_le
    have hc' : c.skipTrivia.rest.length ≤ fuel := by omega
    have base := fun t d => baseType_yields (c := c.skipTrivia) (t := t) (d := d)
      (fun t c d hc h hd => ih hc h hd) hc'
    -- A type is read up to its exclamation mark, and then the mark is looked for.
    have plain (ht : t.kind ≠ .nonNullType) :
        Yields (typeReferenceWithin (fuel + 1)) (TypeRef.map g) t c d := by
      obtain ⟨x, hx, hmap⟩ := base t d ht (h.congr_left (by simp))
      have hnone : d.skipTrivia.literal? (bytes "!") = none :=
        Cursor.literal?_eq_none (Cursor.avoids_skipTrivia.mpr hd) []
      refine .positioned (w := fun _ => x) ?_ (by simp) h.reaches hmap
      simp only [hx, Outcome.andThen, hnone]
    cases t with
    | named t => exact plain (by simp [TypeRef.kind])
    | list loc t => exact plain (by simp [TypeRef.kind])
    | nonNull loc t =>
      obtain ⟨hkind, hloc, hparts⟩ := Written.single_iff.mp h
      obtain ⟨e, htype, hbang⟩ := Written.cons_iff.mp hparts
      obtain ⟨m, hbang, hm⟩ := Written.mark_iff.mp hbang
      obtain ⟨x, hx, rfl⟩ := base t e hkind (htype.congr_left (by simp))
      refine .positioned (w := fun loc => .nonNull loc x) ?_ (Written.nil_iff.mp hm)
        (htype.reaches_token hbang) ?_
      · simp only [hx, Outcome.andThen, literal?_of_reads (hbang.congr (e := e.skipTrivia) (by simp))]
      · rw [TypeRef.map, ← hloc]
        rfl

theorem typeReference_yields {t : TypeRef L} (h : Written k g [.type t] c d)
    (hd : d.Avoids (· == 0x21)) : Yields typeReference (TypeRef.map g) t c d :=
  typeReferenceWithin_yields (Nat.lt_succ_self _) h hd

end SchemaDoc.Grammar
