import SchemaDoc.Proofs.Layout.Basic

/-! # One layout of a text

A text is cut into the tokens of a tree in one way only. The gap in front of a
token is all the trivia there, so two layouts can differ only where a word of the
tree may be left out; but such a word starts with another character than the
token that stands in its place without it.
-/

namespace SchemaDoc

open Grammar

namespace Grammar

variable {g h s t : Bytes} {items xs ys : List (Token × Bytes)}

/-- A text is cut in one way into a gap and a rest that does not start with trivia. -/
theorem gap_append_inj (hg : Gap g) (hh : Gap h) (hs : ¬ StartsTrivial s) (ht : ¬ StartsTrivial t)
    (heq : g ++ s = h ++ t) : g = h ∧ s = t := by
  apply List.append_inj heq
  rw [← triviaLength_eq hg hs, heq, triviaLength_eq hh ht]

/-- Proper tokens with gaps behind them. -/
def Laid (items : List (Token × Bytes)) : Prop := ∀ item ∈ items, item.1.Proper ∧ Gap item.2

theorem Laid.not_startsTrivial (h : Laid items) : ¬ StartsTrivial (Layout.itemsText items) := by
  cases items with
  | nil => exact not_startsTrivial_nil
  | cons item items =>
    obtain ⟨t, g⟩ := item
    obtain ⟨b, s, hs, hb, -⟩ := (h (t, g) (by simp)).1.exists_first
    rw [Layout.itemsText_cons, hs]
    exact not_startsTrivial_of_ascii hb.1 hb.2

/-- Behind a common first token the gaps are equal and so is the further text. -/
theorem Laid.cons_inj {t : Token} (hx : Laid ((t, g) :: xs)) (hy : Laid ((t, h) :: ys))
    (heq : Layout.itemsText ((t, g) :: xs) = Layout.itemsText ((t, h) :: ys)) :
    g = h ∧ Layout.itemsText xs = Layout.itemsText ys := by
  obtain ⟨⟨-, hg⟩, hxs⟩ := List.forall_mem_cons.mp hx
  obtain ⟨⟨-, hh⟩, hys⟩ := List.forall_mem_cons.mp hy
  rw [Layout.itemsText_cons, Layout.itemsText_cons] at heq
  exact gap_append_inj hg hh (Laid.not_startsTrivial hxs) (Laid.not_startsTrivial hys)
    (List.append_cancel_left heq)

/-- Texts of tokens that start with different characters are different. -/
theorem Laid.itemsText_ne {t u : Token} (hx : Laid ((t, g) :: xs)) (hy : Laid ((u, h) :: ys))
    (hne : t.text.head? ≠ u.text.head?) :
    Layout.itemsText ((t, g) :: xs) ≠ Layout.itemsText ((u, h) :: ys) := by
  obtain ⟨a, s, ht, -, -⟩ := (hx (t, g) (by simp)).1.exists_first
  obtain ⟨b, s', hu, -, -⟩ := (hy (u, h) (by simp)).1.exists_first
  rw [Layout.itemsText_cons, Layout.itemsText_cons, ht, hu]
  rw [ht, hu] at hne
  intro heq
  exact hne (congrArg some (List.cons.inj heq).1)

end Grammar

variable {L : Type} {ps : List (Part L)} {ts : List Token} {as bs xs ys : List (Token × Bytes)}

/-- Behind every token that may be left out stands a token that starts with another character. -/
def Part.Settled : List (Part L) → Prop
  | [] => True
  | .optional t :: ps => (∃ u qs, ps = .token u :: qs ∧ t.text.head? ≠ u.text.head?) ∧ Settled ps
  | _ :: ps => Settled ps

namespace Part

@[simp] theorem settled_nil : Settled ([] : List (Part L)) := trivial

@[simp] theorem settled_token {t : Token} : Settled (.token t :: ps) ↔ Settled ps := Iff.rfl

@[simp] theorem settled_mark {s : String} : Settled (.mark s :: ps) ↔ Settled ps := Iff.rfl

@[simp] theorem settled_word {s : String} : Settled (.word s :: ps) ↔ Settled ps := Iff.rfl

@[simp] theorem settled_node {n : Node L} : Settled (.node n :: ps) ↔ Settled ps := Iff.rfl

@[simp] theorem settled_name {n : Name L} : Settled (.name n :: ps) ↔ Settled ps := Iff.rfl

@[simp] theorem settled_type {t : TypeRef L} : Settled (.type t :: ps) ↔ Settled ps := Iff.rfl

@[simp] theorem settled_elements {α : Type} {ofMember : α → Node L} {es : List (Element L α)} :
    Settled (Element.parts ofMember es ++ ps) ↔ Settled ps := by
  induction es with
  | nil => rfl
  | cons e es ih => exact ih

@[simp] theorem settled_block {α : Type} {ofMember : α → Node L} {es : List (Element L α)} :
    Settled (Element.blockParts ofMember es) := by
  simp [Element.blockParts]

@[simp] theorem settled_unionParts (members : List (NamedType L)) :
    Settled (NamedType.unionParts members) := by
  fun_induction NamedType.unionParts members with
  | case1 => trivial
  | case2 t => trivial
  | case3 t ts _ ih => exact ih

/-- The word in front of the interfaces is left out only in front of a brace. -/
theorem settled_object (o : ObjectType L) : Settled o.parts := by
  have hrest : Settled (Element.parts (fun t => .type (.named t)) o.interfaces ++
      Element.blockParts .field o.fields) := by simp
  rw [ObjectType.parts, settled_word, settled_name, ObjectType.implementsPart]
  split
  · next h =>
    rw [List.isEmpty_iff.mp h] at hrest ⊢
    exact ⟨⟨_, _, rfl, by decide⟩, hrest⟩
  · exact hrest

theorem settled_parts (n : Node L) : Settled n.parts := by
  cases n with
  | document d =>
    have h : Settled (Element.parts .definition d.definitions ++ []) := settled_elements.mpr trivial
    simpa [Node.parts] using h
  | comment c => trivial
  | name m => trivial
  | type t => cases t <;> simp [Node.parts, TypeRef.parts]
  | definition d =>
    cases d with
    | object o => exact settled_object o
    | _ => simp [Node.parts, Definition.parts]
  | enumMember m => trivial
  | inputValue i => cases h : i.default <;> simp [Node.parts, InputValue.parts, Value.defaultParts, h]
  | field f => cases h : f.arguments <;> simp [Node.parts, Field.parts, Field.argumentParts, h]
  | value v => cases v <;> simp [Node.parts, Value.parts]
  | objectField f => cases f; simp [Node.parts, ObjectField.parts]

end Part

private theorem Spells.exists_of_token {t : Token} (h : Spells (.token t :: ps) (as.map Prod.fst)) :
    ∃ g bs, as = (t, g) :: bs := by
  generalize hts : as.map Prod.fst = ts at h
  cases h with
  | token _ =>
    obtain ⟨⟨_, g⟩, bs, rfl, rfl, -⟩ := List.map_eq_cons_iff.mp hts
    exact ⟨g, bs, rfl⟩

/-- Where one spelling of the parts leaves a token out, none of the same text keeps it. -/
private theorem Laid.itemsText_ne_of_settled {t : Token} {g : Bytes}
    (hps : Part.Settled (.optional t :: ps)) (has : Spells ps (as.map Prod.fst))
    (hx : Laid (as ++ xs)) (hy : Laid ((t, g) :: ys)) :
    Layout.itemsText (as ++ xs) ≠ Layout.itemsText ((t, g) :: ys) := by
  obtain ⟨⟨u, qs, rfl, hne⟩, -⟩ := hps
  obtain ⟨h, as, rfl⟩ := Spells.exists_of_token has
  exact Laid.itemsText_ne hx hy hne.symm

/-- Two spellings of the same parts at the start of a text are equal, and so is the further text.
The induction is on one of them; nodes are spelled one behind the other, hence the further text. -/
theorem Spells.items_inj (h : Spells ps ts) (hps : Part.Settled ps) (hts : as.map Prod.fst = ts)
    (hbs : Spells ps (bs.map Prod.fst)) (hx : Laid (as ++ xs)) (hy : Laid (bs ++ ys))
    (htext : Layout.itemsText (as ++ xs) = Layout.itemsText (bs ++ ys)) :
    as = bs ∧ Layout.itemsText xs = Layout.itemsText ys := by
  induction h generalizing as bs xs ys with
  | nil =>
    generalize hus : bs.map Prod.fst = us at hbs
    cases hbs
    rw [List.map_eq_nil_iff.mp hts, List.map_eq_nil_iff.mp hus] at htext ⊢
    exact ⟨rfl, htext⟩
  | @token t ps ts _ ih =>
    obtain ⟨⟨_, g⟩, as, rfl, rfl, has⟩ := List.map_eq_cons_iff.mp hts
    generalize hus : bs.map Prod.fst = us at hbs
    cases hbs with
    | token hbs =>
      obtain ⟨⟨_, h⟩, bs, rfl, rfl, rfl⟩ := List.map_eq_cons_iff.mp hus
      obtain ⟨rfl, hbehind⟩ := Laid.cons_inj hx hy htext
      obtain ⟨rfl, hrest⟩ := ih hps has hbs (List.forall_mem_cons.mp hx).2
        (List.forall_mem_cons.mp hy).2 hbehind
      exact ⟨rfl, hrest⟩
  | @omitted t ps ts hspells ih =>
    generalize hus : bs.map Prod.fst = us at hbs
    cases hbs with
    | omitted hbs => exact ih hps.2 hts (hus ▸ hbs) hx hy htext
    | kept hbs =>
      obtain ⟨⟨_, h⟩, bs, rfl, rfl, -⟩ := List.map_eq_cons_iff.mp hus
      exact absurd htext (Laid.itemsText_ne_of_settled hps (hts ▸ hspells) hx hy)
  | @kept t ps ts _ ih =>
    obtain ⟨⟨_, g⟩, as, rfl, rfl, has⟩ := List.map_eq_cons_iff.mp hts
    generalize hus : bs.map Prod.fst = us at hbs
    cases hbs with
    | omitted hbs =>
      exact absurd htext.symm (Laid.itemsText_ne_of_settled hps (hus ▸ hbs) hy hx)
    | kept hbs =>
      obtain ⟨⟨_, h⟩, bs, rfl, rfl, rfl⟩ := List.map_eq_cons_iff.mp hus
      obtain ⟨rfl, hbehind⟩ := Laid.cons_inj hx hy htext
      obtain ⟨rfl, hrest⟩ := ih hps.2 has hbs (List.forall_mem_cons.mp hx).2
        (List.forall_mem_cons.mp hy).2 hbehind
      exact ⟨rfl, hrest⟩
  | @node n ps us ts _ _ ihn ih =>
    obtain ⟨as₁, as₂, rfl, has₁, has₂⟩ := List.map_eq_append_iff.mp hts
    generalize hvs : bs.map Prod.fst = vs at hbs
    cases hbs with
    | node hn hbs =>
      obtain ⟨bs₁, bs₂, rfl, rfl, rfl⟩ := List.map_eq_append_iff.mp hvs
      rw [List.append_assoc] at hx hy htext
      rw [List.append_assoc bs₁] at htext
      obtain ⟨rfl, hbehind⟩ := ihn (Part.settled_parts n) has₁ hn hx hy htext
      obtain ⟨rfl, hrest⟩ := ih hps has₂ hbs (List.forall_mem_append.mp hx).2
        (List.forall_mem_append.mp hy).2 hbehind
      exact ⟨rfl, hrest⟩

/-- A text has at most one layout with the tokens of a given document. -/
theorem Document.layout_unique {doc : Document L} {l l' : Layout} (hl : doc.Spells l.tokens)
    (hl' : doc.Spells l'.tokens) (hproper : ∀ t ∈ l.tokens, t.Proper)
    (hproper' : ∀ t ∈ l'.tokens, t.Proper) (htext : l.text = l'.text) : l = l' := by
  obtain ⟨lead, items, hlead, hgaps⟩ := l
  obtain ⟨lead', items', hlead', hgaps'⟩ := l'
  have laid {items : List (Token × Bytes)} (hgaps : ∀ item ∈ items, Gap item.2)
      (hproper : ∀ t ∈ items.map Prod.fst, t.Proper) : Laid items := fun item hitem =>
    ⟨hproper item.1 (List.mem_map_of_mem hitem), hgaps item hitem⟩
  have hx := laid hgaps hproper
  have hy := laid hgaps' hproper'
  obtain ⟨rfl, hitems⟩ := gap_append_inj hlead hlead' hx.not_startsTrivial hy.not_startsTrivial
    htext
  have hitems : Layout.itemsText (items ++ []) = Layout.itemsText (items' ++ []) := by
    simpa using hitems
  obtain ⟨rfl, -⟩ := Spells.items_inj hl (Part.settled_parts _) rfl hl' (by simpa using hx)
    (by simpa using hy) hitems
  rfl

end SchemaDoc
