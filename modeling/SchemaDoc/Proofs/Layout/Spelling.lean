import SchemaDoc.Proofs.Syntax.Part
import SchemaDoc.Proofs.Syntax.WellFormed

/-! # Spelling a tree

The tokens of a tree are those of its parts in order, where the word in front of
an empty list of interfaces may stand or not. This is the only freedom: two
token sequences of one tree differ in nothing else.
-/

namespace SchemaDoc

open Grammar

variable {L : Type} {k : Constancy} {n : Node L} {ps : List (Part L)} {ts us : List Token}

/-- The parts are spelled by the tokens, those of a node in the place of the node. -/
inductive Spells : List (Part L) → List Token → Prop where
  | nil : Spells [] []
  | token {t : Token} {ps : List (Part L)} {ts : List Token} :
      Spells ps ts → Spells (.token t :: ps) (t :: ts)
  | omitted {t : Token} {ps : List (Part L)} {ts : List Token} :
      Spells ps ts → Spells (.optional t :: ps) ts
  | kept {t : Token} {ps : List (Part L)} {ts : List Token} :
      Spells ps ts → Spells (.optional t :: ps) (t :: ts)
  | node {n : Node L} {ps : List (Part L)} {us ts : List Token} :
      Spells n.parts us → Spells ps ts → Spells (.node n :: ps) (us ++ ts)

def Node.Spells (n : Node L) (ts : List Token) : Prop := SchemaDoc.Spells n.parts ts

def Document.Spells (d : Document L) (ts : List Token) : Prop := (Node.document d).Spells ts

namespace Spells

theorem append_iff {qs : List (Part L)} :
    Spells (ps ++ qs) ts ↔ ∃ us vs, ts = us ++ vs ∧ Spells ps us ∧ Spells qs vs := by
  constructor
  · intro h
    induction ps generalizing ts with
    | nil => exact ⟨[], ts, rfl, .nil, h⟩
    | cons p ps ih =>
      cases h with
      | token h =>
        obtain ⟨us, vs, rfl, hus, hvs⟩ := ih h
        exact ⟨_ :: us, vs, rfl, .token hus, hvs⟩
      | omitted h =>
        obtain ⟨us, vs, rfl, hus, hvs⟩ := ih h
        exact ⟨us, vs, rfl, .omitted hus, hvs⟩
      | kept h =>
        obtain ⟨us, vs, rfl, hus, hvs⟩ := ih h
        exact ⟨_ :: us, vs, rfl, .kept hus, hvs⟩
      | @node n _ us _ hn h =>
        obtain ⟨us', vs, rfl, hus, hvs⟩ := ih h
        exact ⟨us ++ us', vs, (List.append_assoc _ _ _).symm, .node hn hus, hvs⟩
  · rintro ⟨us, vs, rfl, hus, hvs⟩
    induction hus with
    | nil => exact hvs
    | token _ ih => exact .token ih
    | omitted _ ih => exact .omitted ih
    | kept _ ih => exact .kept ih
    | node hn _ _ ih =>
      rw [List.append_assoc]
      exact .node hn ih

/-- A node may be replaced by its parts. -/
theorem of_parts (h : Spells (n.parts ++ ps) ts) : Spells (.node n :: ps) ts := by
  obtain ⟨us, vs, rfl, hus, hvs⟩ := append_iff.mp h
  exact .node hus hvs

end Spells

namespace Spells

private theorem ne_nil_of_token {t : Token} (h : Spells (.token t :: ps) ts) : ts ≠ [] := by
  cases h
  simp

private theorem ne_nil_of_name {m : Name L} (h : Spells (.name m :: ps) ts) : ts ≠ [] := by
  cases h with
  | node hname hps => simp [ne_nil_of_token hname]

end Spells

def Node.IsDocument : Node L → Prop
  | .document _ => True
  | _ => False

theorem Node.Spells.ne_nil (h : n.Spells ts) (hn : ¬ n.IsDocument) : ts ≠ [] := by
  cases n with
  | document d => exact absurd trivial hn
  | comment c => exact SchemaDoc.Spells.ne_nil_of_token h
  | name m => exact SchemaDoc.Spells.ne_nil_of_token h
  | type t =>
    cases t with
    | named t => exact SchemaDoc.Spells.ne_nil_of_name h
    | list loc inner => exact SchemaDoc.Spells.ne_nil_of_token h
    | nonNull loc inner =>
      cases h with
      | node hinner hmark => simp [SchemaDoc.Spells.ne_nil_of_token hmark]
  | definition d => cases d <;> exact SchemaDoc.Spells.ne_nil_of_token h
  | enumMember m => exact SchemaDoc.Spells.ne_nil_of_name h
  | inputValue i => exact SchemaDoc.Spells.ne_nil_of_name h
  | field f => exact SchemaDoc.Spells.ne_nil_of_name h
  | value v =>
    cases v
    case enum => exact SchemaDoc.Spells.ne_nil_of_name h
    all_goals exact SchemaDoc.Spells.ne_nil_of_token h
  | objectField f =>
    cases f
    exact SchemaDoc.Spells.ne_nil_of_name h

/-- A token of the part is a proper one, and a node of it is no document. -/
def Part.Proper : Part L → Prop
  | .token t => t.Proper
  | .optional t => t.Proper
  | .node n => ¬ n.IsDocument

private theorem Part.mark_proper {s : String} (h : bytes s ∈ marks) :
    (Part.mark s : Part L).Proper := h

private theorem Part.word_proper {s : String} (h : IsIdentifier (bytes s)) :
    (Part.word s : Part L).Proper := h

@[simp] private theorem Part.name_proper (m : Name L) : (Part.name m).Proper := id

@[simp] private theorem Part.type_proper (t : TypeRef L) : (Part.type t).Proper := id

@[simp] private theorem Part.value_proper (v : Value L) : (Part.node (.value v)).Proper := id

private theorem Element.parts_proper {α : Type} {ofMember : α → Node L}
    (h : ∀ a, ¬ (ofMember a).IsDocument) (es : List (Element L α)) :
    ∀ p ∈ Element.parts ofMember es, p.Proper := by
  intro p hp
  obtain ⟨e, -, rfl⟩ := List.mem_map.mp hp
  cases e with
  | comment c => exact id
  | member a => exact h a

private theorem Element.blockParts_proper {α : Type} {ofMember : α → Node L}
    (h : ∀ a, ¬ (ofMember a).IsDocument) (es : List (Element L α)) :
    ∀ p ∈ Element.blockParts ofMember es, p.Proper := by
  simp only [Element.blockParts, List.forall_mem_cons, List.forall_mem_append]
  exact ⟨Part.mark_proper (by decide), Element.parts_proper h es, Part.mark_proper (by decide),
    by simp⟩

private theorem NamedType.unionParts_proper (members : List (NamedType L)) :
    ∀ p ∈ NamedType.unionParts members, p.Proper := by
  fun_induction NamedType.unionParts members with
  | case1 => simp
  | case2 t => simp
  | case3 t ts _ ih => simpa using ⟨Part.mark_proper (by decide), ih⟩

private theorem ObjectType.implementsPart_proper (o : ObjectType L) :
    o.implementsPart.Proper := by
  have h : IsIdentifier (bytes "implements") := by decide
  unfold implementsPart
  split
  · exact h
  · exact h

private theorem Definition.parts_proper (d : Definition L) : ∀ p ∈ d.parts, p.Proper := by
  have block {α : Type} {ofMember : α → Node L} (w : String) (m : Name L)
      (hw : IsIdentifier (bytes w)) (h : ∀ a, ¬ (ofMember a).IsDocument)
      (es : List (Element L α)) :
      ∀ p ∈ Part.word w :: Part.name m :: Element.blockParts ofMember es, p.Proper := by
    simpa using ⟨Part.word_proper hw, Element.blockParts_proper h es⟩
  cases d with
  | object o =>
    simp only [Definition.parts, ObjectType.parts, List.forall_mem_cons, List.forall_mem_append]
    exact ⟨Part.word_proper (by decide), id, o.implementsPart_proper,
      Element.parts_proper (fun _ => id) _, Element.blockParts_proper (fun _ => id) _⟩
  | interface loc m fields => exact block "interface" m (by decide) (fun _ => id) fields
  | union loc m members =>
    simpa [Definition.parts] using ⟨Part.word_proper (by decide), Part.mark_proper (by decide),
      NamedType.unionParts_proper members⟩
  | scalar loc m => simpa [Definition.parts] using Part.word_proper (by decide)
  | enum loc m members => exact block "enum" m (by decide) (fun _ => id) members
  | input loc m fields => exact block "input" m (by decide) (fun _ => id) fields
  | extension loc o => simpa [Definition.parts] using ⟨Part.word_proper (by decide), id⟩

private theorem Value.parts_proper {v : Value L} (h : v.Admissible k) :
    ∀ p ∈ v.parts, p.Proper := by
  cases v with
  | «variable» loc m => simpa [Value.parts] using Part.mark_proper (by decide)
  | number loc n => exact List.forall_mem_singleton.mpr h.1
  | string loc text =>
    have hline : ∀ b ∈ text, b ≠ 0x0A := fun b hb hlf => absurd (h b hb) (by simp [hlf])
    exact List.forall_mem_singleton.mpr hline
  | boolean loc b =>
    cases b <;> simpa [Value.parts] using Part.word_proper (by decide)
  | enum loc m => simp [Value.parts]
  | list loc es =>
    simp only [Value.parts, List.forall_mem_cons, List.forall_mem_append]
    exact ⟨Part.mark_proper (by decide), Element.parts_proper (fun _ => id) es,
      Part.mark_proper (by decide), by simp⟩
  | object loc fields => exact Element.blockParts_proper (fun _ => id) fields

/-- What is written directly by an admissible node is proper. -/
theorem Node.parts_proper (h : n.Admissible k) : ∀ p ∈ n.parts, p.Proper := by
  cases n with
  | document d => exact Element.parts_proper (fun _ => id) d.definitions
  | comment c => exact List.forall_mem_singleton.mpr h
  | name m => exact List.forall_mem_singleton.mpr h
  | type t =>
    cases t with
    | named t => simp [parts, TypeRef.parts]
    | list loc inner =>
      simpa [parts, TypeRef.parts] using
        ⟨Part.mark_proper (by decide), Part.mark_proper (by decide)⟩
    | nonNull loc inner => simpa [parts, TypeRef.parts] using Part.mark_proper (by decide)
  | definition d => exact d.parts_proper
  | enumMember m => simp [parts]
  | inputValue i =>
    cases hd : i.default with
    | none =>
      simpa [parts, InputValue.parts, hd, Value.defaultParts] using Part.mark_proper (by decide)
    | some v =>
      simpa [parts, InputValue.parts, hd, Value.defaultParts] using
        ⟨Part.mark_proper (by decide), Part.mark_proper (by decide)⟩
  | field f =>
    have harguments : ∀ p ∈ Field.argumentParts f.arguments, p.Proper := by
      cases f.arguments with
      | none => simp [Field.argumentParts]
      | some arguments =>
        simp only [Field.argumentParts, List.forall_mem_cons, List.forall_mem_append]
        exact ⟨Part.mark_proper (by decide), Element.parts_proper (fun _ => id) arguments,
          Part.mark_proper (by decide), by simp⟩
    simp only [parts, Field.parts, List.forall_mem_cons, List.forall_mem_append]
    exact ⟨id, harguments, Part.mark_proper (by decide), id, by simp⟩
  | value v => exact Value.parts_proper h
  | objectField f =>
    cases f
    simpa [parts, ObjectField.parts] using Part.mark_proper (by decide)

/-- The tokens of a tree of admissible nodes are proper. -/
theorem Spells.proper (h : Spells ps ts) (hps : ∀ p ∈ ps, p.Proper)
    (hwalk : ∀ n ∈ ps.flatMap Part.walk, n.Admissible k) : ∀ t ∈ ts, t.Proper := by
  induction h with
  | nil => simp
  | token _ ih =>
    obtain ⟨ht, hps⟩ := List.forall_mem_cons.mp hps
    exact List.forall_mem_cons.mpr ⟨ht, ih hps (by simpa [Part.walk] using hwalk)⟩
  | omitted _ ih => exact ih (List.forall_mem_cons.mp hps).2 (by simpa [Part.walk] using hwalk)
  | kept _ ih =>
    obtain ⟨ht, hps⟩ := List.forall_mem_cons.mp hps
    exact List.forall_mem_cons.mpr ⟨ht, ih hps (by simpa [Part.walk] using hwalk)⟩
  | @node n ps us ts _ _ ihn ih =>
    rw [List.flatMap_cons] at hwalk
    obtain ⟨hself, htail⟩ := List.forall_mem_append.mp hwalk
    have hparts := Node.parts_proper (hself n n.self_mem_walk)
    rw [Part.walk, Node.walk_eq_parts] at hself
    exact List.forall_mem_append.mpr ⟨ihn hparts (List.forall_mem_append.mp hself).1,
      ih (List.forall_mem_cons.mp hps).2 htail⟩

end SchemaDoc
