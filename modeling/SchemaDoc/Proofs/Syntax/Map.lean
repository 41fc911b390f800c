import SchemaDoc.Syntax.Basic

/-! # Changing the annotations of a tree

A function on annotations acts on whole trees and changes nothing else in them.
Forgetting locations and moving them are two cases.
-/

namespace SchemaDoc

variable {L M : Type}

def Name.map (f : L → M) (n : Name L) : Name M := ⟨f n.loc, n.text⟩

def Comment.map (f : L → M) (c : Comment L) : Comment M := ⟨f c.loc, c.text⟩

def Element.map {α β : Type} (f : L → M) (h : α → β) : Element L α → Element M β
  | .comment c => .comment (c.map f)
  | .member a => .member (h a)

def NamedType.map (f : L → M) (t : NamedType L) : NamedType M := ⟨f t.loc, t.name.map f⟩

def TypeRef.map (f : L → M) : TypeRef L → TypeRef M
  | .named t => .named (t.map f)
  | .list loc inner => .list (f loc) (inner.map f)
  | .nonNull loc inner => .nonNull (f loc) (inner.map f)

mutual

def Value.map (f : L → M) : Value L → Value M
  | .variable loc name => .variable (f loc) (name.map f)
  | .number loc n => .number (f loc) n
  | .string loc text => .string (f loc) text
  | .boolean loc b => .boolean (f loc) b
  | .enum loc name => .enum (f loc) (name.map f)
  | .list loc elements => .list (f loc) (Value.mapElements f elements)
  | .object loc fields => .object (f loc) (Value.mapFields f fields)

def Value.mapElements (f : L → M) : List (Element L (Value L)) → List (Element M (Value M))
  | [] => []
  | .comment c :: rest => .comment (c.map f) :: Value.mapElements f rest
  | .member v :: rest => .member (v.map f) :: Value.mapElements f rest

def Value.mapFields (f : L → M) :
    List (Element L (ObjectField L)) → List (Element M (ObjectField M))
  | [] => []
  | .comment c :: rest => .comment (c.map f) :: Value.mapFields f rest
  | .member field :: rest => .member (field.map f) :: Value.mapFields f rest

def ObjectField.map (f : L → M) : ObjectField L → ObjectField M
  | .mk loc name value => .mk (f loc) (name.map f) (value.map f)

end

@[simp] theorem Value.mapElements_eq (f : L → M) (elements : List (Element L (Value L))) :
    Value.mapElements f elements = elements.map (Element.map f (Value.map f)) := by
  induction elements with
  | nil => rfl
  | cons e elements ih => cases e <;> simp [Value.mapElements, Element.map, ih]

@[simp] theorem Value.mapFields_eq (f : L → M) (fields : List (Element L (ObjectField L))) :
    Value.mapFields f fields = fields.map (Element.map f (ObjectField.map f)) := by
  induction fields with
  | nil => rfl
  | cons e fields ih => cases e <;> simp [Value.mapFields, Element.map, ih]

def InputValue.map (f : L → M) (i : InputValue L) : InputValue M :=
  ⟨f i.loc, i.name.map f, i.type.map f, i.default.map (Value.map f)⟩

def Field.map (f : L → M) (field : Field L) : Field M :=
  ⟨f field.loc, field.name.map f,
    field.arguments.map (List.map (Element.map f (InputValue.map f))), field.type.map f⟩

def EnumMember.map (f : L → M) (m : EnumMember L) : EnumMember M := ⟨f m.loc, m.name.map f⟩

def ObjectType.map (f : L → M) (o : ObjectType L) : ObjectType M :=
  ⟨f o.loc, o.name.map f, o.interfaces.map (Element.map f (NamedType.map f)),
    o.fields.map (Element.map f (Field.map f))⟩

def Definition.map (f : L → M) : Definition L → Definition M
  | .object o => .object (o.map f)
  | .interface loc name fields =>
    .interface (f loc) (name.map f) (fields.map (Element.map f (Field.map f)))
  | .union loc name members => .union (f loc) (name.map f) (members.map (NamedType.map f))
  | .scalar loc name => .scalar (f loc) (name.map f)
  | .enum loc name members =>
    .enum (f loc) (name.map f) (members.map (Element.map f (EnumMember.map f)))
  | .input loc name fields =>
    .input (f loc) (name.map f) (fields.map (Element.map f (InputValue.map f)))
  | .extension loc o => .extension (f loc) (o.map f)

def Document.map (f : L → M) (d : Document L) : Document M :=
  ⟨f d.loc, d.definitions.map (Element.map f (Definition.map f))⟩

/-- A tree without its locations. -/
def Document.erase (d : Document L) : Document Unit := d.map fun _ => ()

@[simp] theorem Name.map_id (n : Name L) : n.map id = n := rfl

@[simp] theorem Comment.map_id (c : Comment L) : c.map id = c := rfl

theorem Element.map_id_of {α : Type} {h : α → α} (hh : ∀ a, h a = a)
    (e : Element L α) : e.map id h = e := by
  cases e with
  | comment c => rfl
  | member a => rw [Element.map, hh]

theorem Element.map_id_list {α : Type} {h : α → α} (hh : ∀ a, h a = a)
    (elements : List (Element L α)) : elements.map (Element.map id h) = elements := by
  rw [funext (Element.map_id_of hh)]
  exact List.map_id' elements

@[simp] theorem NamedType.map_id (t : NamedType L) : t.map id = t := rfl

@[simp] theorem TypeRef.map_id (t : TypeRef L) : t.map id = t := by
  induction t with
  | named t => rfl
  | list loc inner ih => simp [TypeRef.map, ih]
  | nonNull loc inner ih => simp [TypeRef.map, ih]

mutual

theorem Value.map_id : (v : Value L) → v.map id = v
  | .variable _ _ => rfl
  | .number _ _ => rfl
  | .string _ _ => rfl
  | .boolean _ _ => rfl
  | .enum _ _ => rfl
  | .list loc elements => by rw [Value.map, Value.mapElements_id]; rfl
  | .object loc fields => by rw [Value.map, Value.mapFields_id]; rfl

theorem Value.mapElements_id :
    (elements : List (Element L (Value L))) → Value.mapElements id elements = elements
  | [] => rfl
  | .comment c :: rest => by rw [Value.mapElements, Value.mapElements_id rest]; rfl
  | .member v :: rest => by rw [Value.mapElements, Value.map_id v, Value.mapElements_id rest]

theorem Value.mapFields_id :
    (fields : List (Element L (ObjectField L))) → Value.mapFields id fields = fields
  | [] => rfl
  | .comment c :: rest => by rw [Value.mapFields, Value.mapFields_id rest]; rfl
  | .member field :: rest => by
    rw [Value.mapFields, ObjectField.map_id field, Value.mapFields_id rest]

theorem ObjectField.map_id : (field : ObjectField L) → field.map id = field
  | .mk loc name value => by rw [ObjectField.map, Value.map_id value]; rfl

end

@[simp] theorem InputValue.map_id (i : InputValue L) : i.map id = i := by
  simp [InputValue.map, funext Value.map_id]

@[simp] theorem Field.map_id (f : Field L) : f.map id = f := by
  simp [Field.map, funext (Element.map_id_list InputValue.map_id)]

@[simp] theorem EnumMember.map_id (m : EnumMember L) : m.map id = m := rfl

@[simp] theorem ObjectType.map_id (o : ObjectType L) : o.map id = o := by
  simp [ObjectType.map, Element.map_id_list NamedType.map_id, Element.map_id_list Field.map_id]

@[simp] theorem Definition.map_id (d : Definition L) : d.map id = d := by
  cases d <;> simp [Definition.map, Element.map_id_list Field.map_id,
    Element.map_id_list EnumMember.map_id, Element.map_id_list InputValue.map_id,
    funext NamedType.map_id]

end SchemaDoc
