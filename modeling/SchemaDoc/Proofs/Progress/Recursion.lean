import SchemaDoc.Proofs.Grammar.Backtracking
import SchemaDoc.Proofs.Progress.Advance

/-! # Recursion in the grammar

Lists, types, values and unions are read by recursion. Each of them goes on with
a shorter text only, so it comes to an end, and the fuel that bounds its depth is
nothing but bookkeeping: the rules satisfy the recursion without any fuel, and
nothing else does.
-/

namespace SchemaDoc.Grammar

variable {α β ε : Type} {n : Nat} {c d : Cursor} {f g : Rule α}

/-- A rule that does not move back. -/
def Forward (rule : Rule α) : Prop :=
  ∀ c a d, rule c = .matched a d → d.rest.length ≤ c.rest.length

/-- A rule that takes at least one byte whenever it matches. -/
def Shortens (rule : Rule α) : Prop :=
  ∀ c a d, rule c = .matched a d → d.rest.length < c.rest.length

/-- Two rules agree on texts of fewer than `n` bytes. -/
def AgreeBelow (n : Nat) (f g : Rule α) : Prop := ∀ c, c.rest.length < n → f c = g c

/-- A rule satisfies the recursion `make`, which runs the rule only on texts that are shorter than
the one ahead. -/
structure Recursion (make : Rule α → Rule α) (rule : Rule α) : Prop where
  unfolds : ∀ c, rule c = make rule c
  descends : ∀ f g c, Forward f → AgreeBelow c.rest.length f g → make f c = make g c
  forward : Forward rule

/-- The recursion defines the rule: no other one satisfies it. -/
structure Defines (make : Rule α → Rule α) (rule : Rule α) : Prop extends Recursion make rule where
  unique : ∀ other : Rule α, (∀ c, other c = make other c) → other = rule

namespace Recursion

variable {make : Rule α → Rule α} {rule : Rule α} {within : Nat → Rule α}

/-- A recursion that goes on with shorter texts has only one solution. -/
theorem defines (h : Recursion make rule) : Defines make rule where
  toRecursion := h
  unique other hother := by
    funext c
    induction hn : c.rest.length using Nat.strongRecOn generalizing c with
    | ind n ih =>
      rw [hother, h.unfolds]
      refine (h.descends rule other c h.forward fun d hd => ?_).symm
      exact (ih _ (hn ▸ hd) d rfl).symm

section Fuel

variable (hstep : ∀ n, within (n + 1) = make (within n)) (hforward : ∀ n, Forward (within n))
  (hdescends : ∀ f g c, Forward f → AgreeBelow c.rest.length f g → make f c = make g c)

include hstep hforward hdescends

/-- Fuel that is enough has no influence. -/
theorem fuel_eq {m n : Nat} (hm : c.rest.length < m) (hn : c.rest.length < n) :
    within m c = within n c := by
  induction m generalizing c n with
  | zero => omega
  | succ m ih =>
    obtain ⟨n, rfl⟩ : ∃ l, n = l + 1 := ⟨n - 1, by omega⟩
    rw [hstep, hstep]
    exact hdescends _ _ _ (hforward m) fun d hd => ih (by omega) (by omega)

/-- With the length of the text ahead as fuel the recursion is satisfied. -/
theorem of_fuel : Recursion make fun c => within (c.rest.length + 1) c where
  unfolds c := by
    rw [hstep]
    refine hdescends _ _ _ (hforward _) fun d hd => ?_
    exact fuel_eq hstep hforward hdescends hd (Nat.lt_succ_self _)
  descends := hdescends
  forward c a d h := hforward _ c a d h

end Fuel

end Recursion

theorem AgreeBelow.mono {m : Nat} (h : AgreeBelow n f g) (hmn : m ≤ n) : AgreeBelow m f g :=
  fun c hc => h c (Nat.lt_of_lt_of_le hc hmn)

theorem Shortens.forward (h : Shortens f) : Forward f := fun c a d hf => Nat.le_of_lt (h c a d hf)

theorem Outcome.andThen_congr {o : Outcome α} {p q : α → Cursor → Outcome β}
    (h : ∀ a d, o = .matched a d → p a d = q a d) : o.andThen p = o.andThen q := by
  cases o with
  | matched a d => exact h a d rfl
  | noMatch back => rfl
  | failed e => rfl

theorem positioned_congr {f g : Rule (Span → α)} (h : f c.skipTrivia = g c.skipTrivia) :
    positioned f c = positioned g c := by
  rw [positioned, positioned, h]

theorem positioned_forward {f : Rule (Span → α)} (h : Forward f) : Forward (positioned f) := by
  intro c a d hd
  obtain ⟨x, m, hm, rfl, -⟩ := positioned_eq_matched hd
  have hmatch := h _ _ _ hm
  have hskip := c.reaches_skipTrivia.length_le
  have hend := m.reaches_skipTrivia.length_le
  omega

theorem comment_shortens : Shortens comment := fun _ _ _ h =>
  ((comment_covers (k := .constant) h).advances id (skipTrivia_of_positioned h)).2

theorem memberName_shortens : Shortens memberName := fun _ _ _ h =>
  ((memberName_covers (k := .constant) h).advances id (skipTrivia_of_positioned h)).2

theorem definition_shortens : Shortens definition := fun _ _ _ h =>
  ((definition_covers h).advances id (skipTrivia_of_definition h)).2

theorem literal?_length_lt {token : Bytes} (ht : token ∈ marks) (h : c.literal? token = some d) :
    d.rest.length < c.rest.length :=
  ((Token.literal?_eq_some_iff ht).mp h).length_lt

section Lists

variable {onComment : OnComment ε} {item : Rule α} {wrap : α → ε} {o : Outcome (List ε)}

/-- One pass of the list loop; `rest` reads the further elements. -/
def manyOf (onComment : OnComment ε) (item : Rule α) (wrap : α → ε) (rest : Rule (List ε)) :
    Rule (List ε) := fun c =>
  match comment c with
  | .matched found next =>
    match onComment found with
    | .error kind => c.fail (.unexpectedNode kind)
    | .ok e => (rest next).map (e :: ·)
  | .failed e => .failed e
  | .noMatch _ =>
    match item c with
    | .matched a next => (rest next).map (wrap a :: ·)
    | .failed e => .failed e
    | .noMatch _ => .matched [] c

/-- The list loop without a bound: passes one after the other up to a failure or to a place that is
given back both by the rule for comments and by the one for members. -/
inductive Collects (onComment : OnComment ε) (item : Rule α) (wrap : α → ε) :
    Cursor → Outcome (List ε) → Prop where
  | commented {c next : Cursor} {found : Comment Span} {e : ε} {o : Outcome (List ε)} :
      comment c = .matched found next → onComment found = .ok e →
        Collects onComment item wrap next o → Collects onComment item wrap c (o.map (e :: ·))
  | refused {c next : Cursor} {found : Comment Span} {kind : Kind} :
      comment c = .matched found next → onComment found = .error kind →
        Collects onComment item wrap c (c.fail (.unexpectedNode kind))
  | commentFailed {c : Cursor} {e : SyntaxError} :
      comment c = .failed e → Collects onComment item wrap c (.failed e)
  | member {c next : Cursor} {a : α} {o : Outcome (List ε)} :
      comment c = .noMatch c → item c = .matched a next →
        Collects onComment item wrap next o → Collects onComment item wrap c (o.map (wrap a :: ·))
  | memberFailed {c : Cursor} {e : SyntaxError} :
      comment c = .noMatch c → item c = .failed e → Collects onComment item wrap c (.failed e)
  | stop {c : Cursor} :
      comment c = .noMatch c → item c = .noMatch c → Collects onComment item wrap c (.matched [] c)

/-- The cursor moves along a list as it moves along the comments and members in it. -/
theorem manyWithin_along {P : Cursor → Cursor → Prop} (refl : ∀ c, P c c)
    (trans : ∀ {c d e}, P c d → P d e → P c e)
    (hcomment : ∀ {c found d}, comment c = .matched found d → P c d)
    (hitem : ∀ {c a d}, item c = .matched a d → P c d) {n : Nat} {es : List ε}
    (h : manyWithin onComment item wrap n c = .matched es d) : P c d := by
  induction n generalizing c es with
  | zero =>
    obtain ⟨-, rfl⟩ := Outcome.matched.inj h
    exact refl c
  | succ n ih =>
    rw [manyWithin] at h
    split at h
    · next found next hc =>
      split at h
      · simp [Cursor.fail] at h
      · obtain ⟨es, hes, -⟩ := Outcome.map_eq_matched.mp h
        exact trans (hcomment hc) (ih hes)
    · simp at h
    · split at h
      · next a next ha =>
        obtain ⟨es, hes, -⟩ := Outcome.map_eq_matched.mp h
        exact trans (hitem ha) (ih hes)
      · simp at h
      · obtain ⟨-, rfl⟩ := Outcome.matched.inj h
        exact refl c

theorem manyWithin_forward (hitem : Forward item) (n : Nat) :
    Forward (manyWithin onComment item wrap n) := by
  intro c es d h
  apply manyWithin_along (P := fun c d => d.rest.length ≤ c.rest.length) _ _ _ _ h
  · exact fun c => Nat.le_refl _
  · exact fun h h' => Nat.le_trans h' h
  · exact fun hc => comment_shortens.forward _ _ _ hc
  · exact fun ha => hitem _ _ _ ha

/-- The list loop over a rule that takes at least one byte goes on with a shorter text. -/
theorem manyOf_congr (hitem : Shortens item) {f g : Rule (List ε)}
    (hagree : AgreeBelow c.rest.length f g) :
    manyOf onComment item wrap f c = manyOf onComment item wrap g c := by
  rw [manyOf, manyOf]
  cases hc : comment c with
  | matched found next =>
    cases hfound : onComment found with
    | error kind => simp only [hfound]
    | ok e => simp only [hfound, hagree next (comment_shortens _ _ _ hc)]
  | failed e => rfl
  | noMatch back =>
    cases hi : item c with
    | matched a next => simp only [hagree next (hitem _ _ _ hi)]
    | failed e => rfl
    | noMatch back => rfl

theorem manyWithin_recursion (hitem : Shortens item) :
    Recursion (manyOf onComment item wrap)
      fun c => manyWithin onComment item wrap (c.rest.length + 1) c :=
  .of_fuel (fun _ => rfl) (manyWithin_forward hitem.forward) fun _ _ _ _ => manyOf_congr hitem

/-- Fuel that is enough has no influence on a list. -/
theorem manyWithin_fuel (hitem : Shortens item) {m n : Nat} (hm : c.rest.length < m)
    (hn : c.rest.length < n) :
    manyWithin onComment item wrap m c = manyWithin onComment item wrap n c :=
  Recursion.fuel_eq (fun _ => rfl) (manyWithin_forward hitem.forward)
    (fun _ _ _ _ => manyOf_congr hitem) hm hn

/-- Over a rule that takes at least one byte the list loop ends after finitely many passes. -/
theorem collects_manyWithin (hitem : Shortens item) (hback : Backtracks item) (c : Cursor) :
    Collects onComment item wrap c (manyWithin onComment item wrap (c.rest.length + 1) c) := by
  induction hn : c.rest.length using Nat.strongRecOn generalizing c with
  | ind n ih =>
    subst hn
    have hrecursion : Recursion (manyOf onComment item wrap) _ := manyWithin_recursion hitem
    rw [hrecursion.unfolds c, manyOf]
    cases hc : comment c with
    | matched found next =>
      cases hfound : onComment found with
      | error kind =>
        simp only [hfound]
        exact .refused hc hfound
      | ok e =>
        simp only [hfound]
        exact .commented hc hfound (ih _ (comment_shortens _ _ _ hc) next rfl)
    | failed e => exact .commentFailed hc
    | noMatch back =>
      obtain rfl := positioned_backtracks _ _ _ hc
      cases hi : item back with
      | matched a next => exact .member hc hi (ih _ (hitem _ _ _ hi) next rfl)
      | failed e => exact .memberFailed hc hi
      | noMatch d =>
        obtain rfl := hback _ _ hi
        exact .stop hc hi

/-- A list ends with a failure or where neither a comment nor a member matches, and it has at most
as many elements as there are bytes that it went over. -/
theorem Collects.ends (h : Collects onComment item wrap c o) (hitem : Shortens item) :
    (∃ e, o = .failed e) ∨ ∃ es d, o = .matched es d ∧ comment d = .noMatch d ∧
      item d = .noMatch d ∧ es.length + d.rest.length ≤ c.rest.length := by
  induction h with
  | @commented _ _ _ e _ hc _ _ ih =>
    rcases ih with ⟨error, rfl⟩ | ⟨es, d, rfl, hcd, hid, hle⟩
    · exact .inl ⟨error, rfl⟩
    · have hlt := comment_shortens _ _ _ hc
      exact .inr ⟨e :: es, d, rfl, hcd, hid, by rw [List.length_cons]; omega⟩
  | refused _ _ => exact .inl ⟨_, rfl⟩
  | commentFailed _ => exact .inl ⟨_, rfl⟩
  | @member _ _ a _ _ hi _ ih =>
    rcases ih with ⟨error, rfl⟩ | ⟨es, d, rfl, hcd, hid, hle⟩
    · exact .inl ⟨error, rfl⟩
    · have hlt := hitem _ _ _ hi
      exact .inr ⟨wrap a :: es, d, rfl, hcd, hid, by rw [List.length_cons]; omega⟩
  | memberFailed _ _ => exact .inl ⟨_, rfl⟩
  | @stop c hc hi => exact .inr ⟨[], c, rfl, hc, hi, by simp⟩

/-- The rule `list` is the list loop, which ends wherever it starts. -/
structure ListEnds (onComment : OnComment ε) (item : Rule α) (wrap : α → ε)
    (list : Rule (List ε)) : Prop where
  collects : ∀ c, Collects onComment item wrap c (list c)
  stops : ∀ c, (∃ e, list c = .failed e) ∨ ∃ es d, list c = .matched es d ∧
    comment d = .noMatch d ∧ item d = .noMatch d ∧ es.length + d.rest.length ≤ c.rest.length

theorem listEnds_manyWithin (hitem : Shortens item) (hback : Backtracks item) :
    ListEnds onComment item wrap
      fun c => manyWithin onComment item wrap (c.rest.length + 1) c where
  collects := collects_manyWithin hitem hback
  stops c := (collects_manyWithin hitem hback c).ends hitem

/-- On shorter texts than those on which two rules agree the lists over them agree. -/
theorem manyWithin_congr {f g : Rule α} (hf : Forward f) (hagree : AgreeBelow n f g) (fuel : Nat) :
    AgreeBelow n (manyWithin onComment f wrap fuel) (manyWithin onComment g wrap fuel) := by
  induction fuel with
  | zero => exact fun c _ => rfl
  | succ fuel ih =>
    intro c hc
    rw [manyWithin, manyWithin, ← hagree c hc]
    cases hcomment : comment c with
    | matched found next =>
      have hlt := comment_shortens _ _ _ hcomment
      simp only [ih next (by omega)]
    | failed e => rfl
    | noMatch back =>
      cases hi : f c with
      | matched a next =>
        have hle := hf _ _ _ hi
        simp only [ih next (by omega)]
      | failed e => rfl
      | noMatch back => rfl

theorem many_congr {f g : Rule α} (hf : Forward f) (hagree : AgreeBelow n f g) :
    AgreeBelow n (many f) (many g) :=
  fun c hc => manyWithin_congr hf hagree _ c hc

end Lists

/-- One level of a type reference; `inner` reads the type between brackets. -/
def typeReferenceOf (inner : Rule (TypeRef Span)) : Rule (TypeRef Span) := positioned fun c =>
  (((namedType c).map TypeRef.named).orElse fun _ => listTypeOf inner c).andThen fun t next =>
    match next.literal? (bytes "!") with
    | some next => .matched (fun loc => .nonNull loc t) next
    | none => .matched (fun _ => t) next

theorem listTypeOf_congr {f g : Rule (TypeRef Span)} (h : AgreeBelow c.rest.length f g) :
    listTypeOf f c = listTypeOf g c := by
  apply positioned_congr
  cases hopen : c.skipTrivia.literal? (bytes "[") with
  | none => rfl
  | some next =>
    have hlt := literal?_length_lt (by decide) hopen
    have hle := c.reaches_skipTrivia.length_le
    simp only [h next (by omega)]

theorem typeReferenceWithin_forward (n : Nat) : Forward (typeReferenceWithin n) := by
  intro c a d h
  exact (typeReferenceWithin_covers (k := .constant) h).1.length_le

theorem typeReference_recursion : Recursion typeReferenceOf typeReference := by
  refine .of_fuel (fun n => rfl) typeReferenceWithin_forward fun f g c _ hagree => ?_
  apply positioned_congr
  have hlist : listTypeOf f c.skipTrivia = listTypeOf g c.skipTrivia :=
    listTypeOf_congr (hagree.mono c.reaches_skipTrivia.length_le)
  rw [hlist]

/-- One level of a value; `item` reads the members of lists and the values of fields. -/
def valueOf (k : Constancy) (item : Rule (Value Span)) : Rule (Value Span) := fun c =>
  (variableWhere k c).orElse fun _ =>
  (numberValue c).orElse fun _ =>
  (stringValue c).orElse fun _ =>
  (booleanValue c).orElse fun _ =>
  (enumValue c).orElse fun _ =>
  (listValueOf item c).orElse fun _ =>
  objectValueOf item c

section Values

variable {f g : Rule (Value Span)}

theorem listValueOf_congr (hf : Forward f) (h : AgreeBelow c.rest.length f g) :
    listValueOf f c = listValueOf g c := by
  apply positioned_congr
  cases hopen : c.skipTrivia.literal? (bytes "[") with
  | none => rfl
  | some next =>
    have hlt := literal?_length_lt (by decide) hopen
    have hle := c.reaches_skipTrivia.length_le
    simp only [many_congr hf h next (by omega)]

theorem objectFieldOf_forward (hf : Forward f) : Forward (objectFieldOf f) := by
  apply positioned_forward
  intro c a d h
  simp only [Outcome.andThen_eq_matched, Outcome.map_eq_matched, expect_eq_matched,
    Outcome.require_eq_matched] at h
  obtain ⟨n, m, hn, _, m', hcolon, v, hv, -⟩ := h
  have hname := memberName_shortens _ _ _ hn
  have hcolon := literal?_length_lt (by decide) hcolon
  have hvalue := hf _ _ _ hv
  omega

theorem objectFieldOf_congr {n : Nat} (h : AgreeBelow n f g) :
    AgreeBelow n (objectFieldOf f) (objectFieldOf g) := by
  intro c hc
  apply positioned_congr
  refine Outcome.andThen_congr fun name m hname => Outcome.andThen_congr fun _ m' hcolon => ?_
  have hle := c.reaches_skipTrivia.length_le
  have hname := memberName_shortens _ _ _ hname
  have hcolon := literal?_length_lt (by decide) (expect_eq_matched.mp hcolon)
  rw [h m' (by omega)]

theorem objectValueOf_congr (hf : Forward f) (h : AgreeBelow c.rest.length f g) :
    objectValueOf f c = objectValueOf g c := by
  apply positioned_congr
  cases hopen : c.skipTrivia.literal? (bytes "\x7b") with
  | none => rfl
  | some next =>
    have hlt := literal?_length_lt (by decide) hopen
    have hle := c.reaches_skipTrivia.length_le
    simp only [many_congr (objectFieldOf_forward hf) (objectFieldOf_congr h) next (by omega)]

end Values

theorem valueWithin_forward (k : Constancy) (n : Nat) : Forward (valueWithin k n) := by
  intro c v d h
  exact (valueWithin_covers h).1.length_le

theorem value_recursion (k : Constancy) : Recursion (valueOf k) (value k) := by
  refine .of_fuel (fun n => rfl) (valueWithin_forward k) fun f g c hf hagree => ?_
  rw [valueOf, valueOf, listValueOf_congr hf hagree, objectValueOf_congr hf hagree]

/-- The further members of a union, each behind a bar. -/
def unionMembers : Rule (List (NamedType Span)) := fun c =>
  unionMembersWithin (c.rest.length + 1) c

/-- One further member; `rest` reads those behind it. -/
def unionMembersOf (rest : Rule (List (NamedType Span))) : Rule (List (NamedType Span)) := fun c =>
  match c.literal? (bytes "|") with
  | none => .matched [] c
  | some next => (unionMember next).andThen fun t next => (rest next).map (t :: ·)

theorem unionMembersWithin_forward (n : Nat) : Forward (unionMembersWithin n) := by
  intro c ts d h
  exact (unionMembersWithin_covers (k := .constant) h).1.length_le

theorem unionMembers_recursion : Recursion unionMembersOf unionMembers := by
  refine .of_fuel (fun n => rfl) unionMembersWithin_forward fun f g c _ hagree => ?_
  rw [unionMembersOf, unionMembersOf]
  cases hbar : c.literal? (bytes "|") with
  | none => rfl
  | some next =>
    have hlt := literal?_length_lt (by decide) hbar
    refine Outcome.andThen_congr fun t m hm => ?_
    have hle := (unionMember_covers (k := .constant) hm).1.length_le
    rw [hagree m (by omega)]

end SchemaDoc.Grammar
