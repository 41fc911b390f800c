import SchemaDoc.Proofs.Grammar.Outcome

/-! # What names, types and lists cover

Whatever a rule matches is written where it was read: its tokens stand in the
text one behind the other with nothing but trivia between them, its nodes are
admissible, and each carries the span of its tokens.
-/

namespace SchemaDoc.Grammar

variable {α : Type} {k : Constancy} {ps qs : List (Part Span)} {c d m : Cursor} {t : Token}

/-- The cursor moves on from `c` to `d` over exactly these parts. -/
def Covers (k : Constancy) (ps : List (Part Span)) (c d : Cursor) : Prop :=
  c.Reaches d ∧ Written k id ps c d

namespace Covers

theorem nil (c : Cursor) : Covers k [] c c := ⟨.refl c, .nil rfl⟩

theorem token (h : t.Reads c d) : Covers k [.token t] c d := ⟨h.reaches, .token h (.nil rfl)⟩

theorem append (h : Covers k ps c m) (h' : Covers k qs m d) : Covers k (ps ++ qs) c d :=
  ⟨h.1.trans h'.1, h.2.append h'.2⟩

theorem cons {p : Part Span} (h : Covers k [p] c m) (h' : Covers k qs m d) :
    Covers k (p :: qs) c d :=
  h.append h'

theorem skipLeft (h : Covers k ps c.skipTrivia d) : Covers k ps c d :=
  ⟨c.reaches_skipTrivia.trans h.1, h.2.congr_left (by simp)⟩

theorem skipRight (h : Covers k ps c d) : Covers k ps c d.skipTrivia :=
  ⟨h.1.trans d.reaches_skipTrivia, h.2.congr_right (by simp)⟩

theorem mark {s : String} (hs : bytes s ∈ marks) (h : c.literal? (bytes s) = some d) :
    Covers k [.mark s] c d :=
  token ((Token.literal?_eq_some_iff hs).mp h)

theorem word {s : String} (hs : IsIdentifier (bytes s)) (h : c.keyword? (bytes s) = some d) :
    Covers k [.word s] c d :=
  token ((Token.keyword?_eq_some_iff hs).mp h)

/-- A rule between trivia yields a node when the inner rule covers the parts of the node. -/
theorem positioned {rule : Rule (Span → α)} {a : α} (ofResult : α → Node Span)
    (h : positioned rule c = .matched a d)
    (hrule : ∀ f m, rule c.skipTrivia = .matched f m → ∃ ps, Covers k ps c.skipTrivia m ∧
      ∀ loc, (ofResult (f loc)).Admissible k ∧ (ofResult (f loc)).loc = loc ∧
        (ofResult (f loc)).parts = ps) :
    Covers k [.node (ofResult a)] c d := by
  obtain ⟨f, m, hf, rfl, ha⟩ := positioned_eq_matched h
  obtain ⟨ps, hps, hnode⟩ := hrule f m hf
  obtain ⟨hn, hloc, hparts⟩ := hnode (c.spanTo m)
  rw [ha hps.1]
  have hspan : c.spanTo m = c.skipTrivia.spanTo m := Cursor.spanTo_congr_left (by simp) m
  refine skipLeft (skipRight ⟨hps.1, .node hn ?_ (hparts ▸ hps.2) (.nil rfl)⟩)
  rw [hloc, hspan]
  rfl

end Covers

theorem comment_covers {a : Comment Span} (h : comment c = .matched a d) :
    Covers k [.node (.comment a)] c d := by
  refine .positioned .comment h fun f m hf => ?_
  split at hf
  · next text next hl =>
    obtain ⟨rfl, rfl⟩ := Outcome.matched.inj hf
    have hr := Token.lexeme?_comment_eq_some_iff.mp hl
    exact ⟨_, .token hr, fun loc => ⟨hr.2.1, rfl, rfl⟩⟩
  · simp at hf

theorem manyWithin_covers {item : Rule α} {ofMember : α → Node Span}
    (hitem : ∀ c a d, item c = .matched a d → Covers k [.node (ofMember a)] c d)
    {fuel : Nat} {elements : List (Element Span α)}
    (h : manyWithin (fun found => .ok (.comment found)) item .member fuel c =
      .matched elements d) :
    Covers k (Element.parts ofMember elements) c d := by
  induction fuel generalizing c elements with
  | zero =>
    obtain ⟨rfl, rfl⟩ := Outcome.matched.inj h
    exact .nil c
  | succ fuel ih =>
    rw [manyWithin] at h
    split at h
    · next found next hc =>
      obtain ⟨es, hes, rfl⟩ := Outcome.map_eq_matched.mp h
      exact (comment_covers hc).cons (ih hes)
    · simp at h
    · split at h
      · next a next ha =>
        obtain ⟨es, hes, rfl⟩ := Outcome.map_eq_matched.mp h
        exact (hitem _ _ _ ha).cons (ih hes)
      · simp at h
      · obtain ⟨rfl, rfl⟩ := Outcome.matched.inj h
        exact .nil c

theorem many_covers {item : Rule α} {ofMember : α → Node Span}
    (hitem : ∀ c a d, item c = .matched a d → Covers k [.node (ofMember a)] c d)
    {elements : List (Element Span α)} (h : many item c = .matched elements d) :
    Covers k (Element.parts ofMember elements) c d :=
  manyWithin_covers hitem h

theorem memberName_covers {n : Name Span} (h : memberName c = .matched n d) :
    Covers k [.name n] c d := by
  refine .positioned .name h fun f m hf => ?_
  split at hf
  · next text next hl =>
    obtain ⟨rfl, rfl⟩ := Outcome.matched.inj hf
    have hr := Token.lexeme?_name_eq_some_iff.mp hl
    exact ⟨_, .token hr, fun loc => ⟨hr.2.1, rfl, rfl⟩⟩
  · simp at hf

theorem name_eq_matched {n : Name Span} :
    name c = .matched n d ↔ memberName c = .matched n d ∧ n.IsFree := by
  rw [name, memberName, positioned, positioned]
  cases hl : c.skipTrivia.lexeme? .name with
  | none => simp [Outcome.andThen, Outcome.backTo]
  | some read =>
    obtain ⟨text, next⟩ := read
    cases hr : isReserved text with
    | true =>
      simp only [Outcome.andThen, Outcome.backTo, hr, if_true, reduceCtorEq, false_iff, not_and]
      intro hn
      obtain ⟨rfl, -⟩ := Outcome.matched.inj hn
      simp [Name.IsFree, hr]
    | false =>
      simp only [Outcome.andThen, Outcome.backTo, hr, Bool.false_eq_true, if_false, iff_self_and]
      intro hn
      obtain ⟨rfl, -⟩ := Outcome.matched.inj hn
      exact hr

theorem name_covers {n : Name Span} (h : name c = .matched n d) : Covers k [.name n] c d :=
  memberName_covers (name_eq_matched.mp h).1

theorem namedType_covers {a : NamedType Span} (h : namedType c = .matched a d) :
    Covers k [.type (.named a)] c d := by
  refine .positioned (fun t => .type (.named t)) h fun f m hf => ?_
  obtain ⟨n, hn, rfl⟩ := Outcome.map_eq_matched.mp hf
  exact ⟨_, name_covers hn, fun loc => ⟨(name_eq_matched.mp hn).2, rfl, rfl⟩⟩

theorem listTypeOf_covers {inner : Rule (TypeRef Span)} {a : TypeRef Span}
    (hinner : ∀ c a d, inner c = .matched a d → Covers k [.type a] c d)
    (h : listTypeOf inner c = .matched a d) : Covers k [.type a] c d := by
  refine .positioned .type h fun f m hf => ?_
  split at hf
  · simp at hf
  · next next hopen =>
    simp only [Outcome.andThen_eq_matched, Outcome.require_eq_matched, Outcome.map_eq_matched,
      expect_eq_matched] at hf
    obtain ⟨t, e, ht, _, hclose, rfl⟩ := hf
    exact ⟨_, (Covers.mark (by decide) hopen).cons ((hinner _ _ _ ht).cons
      (.mark (by decide) hclose)), fun loc => ⟨trivial, rfl, rfl⟩⟩

theorem kind_of_listTypeOf {inner : Rule (TypeRef Span)} {a : TypeRef Span}
    (h : listTypeOf inner c = .matched a d) : a.kind = .listType := by
  obtain ⟨f, m, loc, hf, rfl⟩ := exists_of_positioned h
  split at hf
  · simp at hf
  · simp only [Outcome.andThen_eq_matched, Outcome.map_eq_matched] at hf
    obtain ⟨t, e, -, _, -, rfl⟩ := hf
    rfl

theorem typeReferenceWithin_covers {fuel : Nat} {a : TypeRef Span}
    (h : typeReferenceWithin fuel c = .matched a d) : Covers k [.type a] c d := by
  induction fuel generalizing c a d with
  | zero => simp [typeReferenceWithin] at h
  | succ fuel ih =>
    obtain ⟨f, m, hf, rfl, ha⟩ := positioned_eq_matched h
    obtain ⟨t, e, ht, hbang⟩ := Outcome.andThen_eq_matched.mp hf
    have hcovers : Covers k [.type t] c.skipTrivia e ∧ t.kind ≠ .nonNullType := by
      rcases Outcome.orElse_eq_matched.mp ht with hnamed | ⟨-, hlist⟩
      · obtain ⟨n, hn, rfl⟩ := Outcome.map_eq_matched.mp hnamed
        exact ⟨namedType_covers hn, by simp [TypeRef.kind]⟩
      · exact ⟨listTypeOf_covers (fun _ _ _ => ih) hlist, by simp [kind_of_listTypeOf hlist]⟩
    split at hbang
    · next next hl =>
      obtain ⟨rfl, rfl⟩ := Outcome.matched.inj hbang
      have hall := hcovers.1.cons (Covers.mark (by decide) hl)
      refine .positioned .type h fun f' m' hf' => ?_
      obtain ⟨rfl, rfl⟩ := Outcome.matched.inj (hf.symm.trans hf')
      exact ⟨_, hall, fun loc => ⟨hcovers.2, rfl, rfl⟩⟩
    · obtain ⟨rfl, rfl⟩ := Outcome.matched.inj hbang
      rw [ha hcovers.1.1]
      exact hcovers.1.skipRight.skipLeft

theorem typeReference_covers {a : TypeRef Span} (h : typeReference c = .matched a d) :
    Covers k [.type a] c d :=
  typeReferenceWithin_covers h

end SchemaDoc.Grammar
