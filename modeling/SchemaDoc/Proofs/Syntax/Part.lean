import SchemaDoc.Proofs.Grammar.Token
import SchemaDoc.Syntax.Walk

/-! # The parts of a node

A node is written as a sequence of parts: tokens of its own, a word that may be
left out, and the nodes directly beneath it. The parts of a node say both what
its tokens are and what its children are, in source order.
-/

namespace SchemaDoc

open Grammar (Token)

variable {L : Type} {α : Type}

/-- A token of a node, a token that may be left out, or a node beneath it. -/
inductive Part (L : Type) where
  | token (token : Token)
  | optional (token : Token)
  | node (node : Node L)

namespace Part

def mark (s : String) : Part L := .token (.mark (bytes s))

def word (s : String) : Part L := .token (.word (bytes s))

def name (n : Name L) : Part L := .node (.name n)

def type (t : TypeRef L) : Part L := .node (.type t)

def node? : Part L → Option (Node L)
  | .node n => some n
  | _ => none

end Part

namespace Element

/-- The node of an element whose members have the nodes `ofMember`. -/
def node (ofMember : α → Node L) : Element L α → Node L
  | .comment c => .comment c
  | .member a => ofMember a

def parts (ofMember : α → Node L) (elements : List (Element L α)) : List (Part L) :=
  elements.map fun e => .node (e.node ofMember)

end Element

def TypeRef.parts : TypeRef L → List (Part L)
  | .named t => [.name t.name]
  | .list _ inner => [.mark "[", .type inner, .mark "]"]
  | .nonNull _ inner => [.type inner, .mark "!"]

def Value.parts : Value L → List (Part L)
  | .variable _ name => [.mark "$", .name name]
  | .number _ n => [.token (.number n.literal)]
  | .string _ text => [.token (.string text)]
  | .boolean _ b => [.word (if b then "true" else "false")]
  | .enum _ name => [.name name]
  | .list _ elements => .mark "[" :: (Element.parts .value elements ++ [.mark "]"])
  | .object _ fields => .mark "\x7b" :: (Element.parts .objectField fields ++ [.mark "\x7d"])

def ObjectField.parts : ObjectField L → List (Part L)
  | .mk _ name value => [.name name, .mark ":", .node (.value value)]

/-- A default value with the equals sign in front of it. -/
def Value.defaultParts : Option (Value L) → List (Part L)
  | none => []
  | some v => [.mark "=", .node (.value v)]

def InputValue.parts (i : InputValue L) : List (Part L) :=
  .name i.name :: .mark ":" :: .type i.type :: Value.defaultParts i.default

/-- An argument list between parentheses, if there is one. -/
def Field.argumentParts : Option (List (Element L (InputValue L))) → List (Part L)
  | none => []
  | some arguments => .mark "(" :: (Element.parts .inputValue arguments ++ [.mark ")"])

def Field.parts (f : Field L) : List (Part L) :=
  .name f.name :: (Field.argumentParts f.arguments ++ [.mark ":", .type f.type])

/-- Members between braces. -/
def Element.blockParts (ofMember : α → Node L) (elements : List (Element L α)) :
    List (Part L) :=
  .mark "\x7b" :: (Element.parts ofMember elements ++ [.mark "\x7d"])

/-- The word in front of the interfaces of an object; without interfaces it may be left out. -/
def ObjectType.implementsPart (o : ObjectType L) : Part L :=
  if o.interfaces.isEmpty then .optional (.word (bytes "implements")) else .word "implements"

def ObjectType.parts (o : ObjectType L) : List (Part L) :=
  .word "type" :: .name o.name :: o.implementsPart ::
    (Element.parts (fun t => .type (.named t)) o.interfaces ++ Element.blockParts .field o.fields)

/-- Union members with a bar between each two. -/
def NamedType.unionParts : List (NamedType L) → List (Part L)
  | [] => []
  | [t] => [.type (.named t)]
  | t :: ts => .type (.named t) :: .mark "|" :: NamedType.unionParts ts

def Definition.parts : Definition L → List (Part L)
  | .object o => o.parts
  | .interface _ name fields => .word "interface" :: .name name :: Element.blockParts .field fields
  | .union _ name members => .word "union" :: .name name :: .mark "=" :: NamedType.unionParts members
  | .scalar _ name => [.word "scalar", .name name]
  | .enum _ name members => .word "enum" :: .name name :: Element.blockParts .enumMember members
  | .input _ name fields => .word "input" :: .name name :: Element.blockParts .inputValue fields
  | .extension _ o => [.word "extend", .node (.definition (.object o))]

namespace Node

def parts : Node L → List (Part L)
  | .document d => Element.parts .definition d.definitions
  | .comment c => [.token (.comment c.text)]
  | .name n => [.token (.word n.text)]
  | .type t => t.parts
  | .definition d => d.parts
  | .enumMember m => [.name m.name]
  | .inputValue i => i.parts
  | .field f => f.parts
  | .value v => v.parts
  | .objectField f => f.parts

/-- The nodes directly beneath a node, in source order. -/
def children (n : Node L) : List (Node L) := n.parts.filterMap Part.node?

end Node

/-- Behind the first member of a union each further one follows a bar. -/
theorem NamedType.unionParts_cons (t : NamedType L) (ts : List (NamedType L)) :
    NamedType.unionParts (t :: ts) =
      .type (.named t) :: ts.flatMap fun u => [.mark "|", .type (.named u)] := by
  induction ts generalizing t with
  | nil => rfl
  | cons u ts ih =>
    rw [NamedType.unionParts, ih, List.flatMap_cons]
    · rfl
    · simp

@[simp] theorem Part.node?_mark (s : String) : (Part.mark s : Part L).node? = none := rfl

@[simp] theorem Part.node?_word (s : String) : (Part.word s : Part L).node? = none := rfl

@[simp] theorem Part.node?_token (t : Token) : (Part.token t : Part L).node? = none := rfl

@[simp] theorem Part.node?_node (n : Node L) : (Part.node n).node? = some n := rfl

@[simp] theorem Part.node?_name (n : Name L) : (Part.name n).node? = some (.name n) := rfl

@[simp] theorem Part.node?_type (t : TypeRef L) : (Part.type t).node? = some (.type t) := rfl

@[simp] theorem ObjectType.node?_implementsPart (o : ObjectType L) :
    o.implementsPart.node? = none := by
  unfold implementsPart
  split <;> rfl

@[simp] theorem Element.filterMap_parts (ofMember : α → Node L) (elements : List (Element L α)) :
    (Element.parts ofMember elements).filterMap Part.node? =
      elements.map (Element.node ofMember) := by
  simp [Element.parts, List.filterMap_map, Function.comp_def]

@[simp] theorem Element.filterMap_blockParts (ofMember : α → Node L)
    (elements : List (Element L α)) :
    (Element.blockParts ofMember elements).filterMap Part.node? =
      elements.map (Element.node ofMember) := by
  simp [Element.blockParts, List.filterMap_cons]

@[simp] theorem NamedType.filterMap_unionParts (members : List (NamedType L)) :
    (NamedType.unionParts members).filterMap Part.node? =
      members.map fun t => .type (.named t) := by
  fun_induction NamedType.unionParts members with
  | case1 => rfl
  | case2 t => rfl
  | case3 t ts hts ih => simp [List.filterMap_cons, ih]

private theorem Element.walk_eq (nodes : α → List (Node L)) (ofMember : α → Node L)
    (h : ∀ a, (ofMember a).walk = nodes a) (elements : List (Element L α)) :
    Element.walk nodes elements = (elements.map (Element.node ofMember)).flatMap Node.walk := by
  induction elements with
  | nil => rfl
  | cons e elements ih =>
    rw [Element.walk, List.flatMap_cons, ← Element.walk, ih, List.map_cons, List.flatMap_cons]
    cases e with
    | comment c => rfl
    | member a => rw [Element.node, h]

private theorem Value.walkElements_eq (elements : List (Element L (Value L))) :
    Value.walkElements elements = (elements.map (Element.node .value)).flatMap Node.walk := by
  induction elements with
  | nil => rfl
  | cons e elements ih =>
    cases e <;> simp [Value.walkElements, Element.node, Node.walk, ih]

private theorem Value.walkFields_eq (fields : List (Element L (ObjectField L))) :
    Value.walkFields fields = (fields.map (Element.node .objectField)).flatMap Node.walk := by
  induction fields with
  | nil => rfl
  | cons e fields ih =>
    cases e <;> simp [Value.walkFields, Element.node, Node.walk, ih]

private theorem NamedType.walk_flatMap (members : List (NamedType L)) :
    members.flatMap NamedType.walk =
      (members.map fun t => Node.type (.named t)).flatMap Node.walk := by
  rw [List.flatMap_map]
  rfl

@[simp] theorem Node.walk_name (n : Name L) : (Node.name n).walk = [.name n] := rfl

@[simp] theorem Node.walk_type (t : TypeRef L) : (Node.type t).walk = t.walk := rfl

@[simp] theorem Node.walk_definition (d : Definition L) : (Node.definition d).walk = d.walk := rfl

@[simp] theorem Node.walk_value (v : Value L) : (Node.value v).walk = v.walk := rfl

/-- A walk goes through the children one after the other and ends with the node itself. -/
theorem Node.walk_eq (n : Node L) : n.walk = n.children.flatMap Node.walk ++ [n] := by
  have interfaces (es : List (Element L (NamedType L))) : Element.walk NamedType.walk es =
      (es.map (Element.node fun t => .type (.named t))).flatMap Node.walk :=
    Element.walk_eq NamedType.walk _ (fun _ => rfl) es
  have fields (es : List (Element L (Field L))) : Element.walk Field.walk es =
      (es.map (Element.node .field)).flatMap Node.walk :=
    Element.walk_eq Field.walk _ (fun _ => rfl) es
  have inputs (es : List (Element L (InputValue L))) : Element.walk InputValue.walk es =
      (es.map (Element.node .inputValue)).flatMap Node.walk :=
    Element.walk_eq InputValue.walk _ (fun _ => rfl) es
  rw [children]
  cases n with
  | document d =>
    have definitions : Element.walk Definition.walk d.definitions =
        (d.definitions.map (Element.node .definition)).flatMap Node.walk :=
      Element.walk_eq Definition.walk _ (fun _ => rfl) d.definitions
    change d.walk = _
    simp [parts, Document.walk, definitions]
  | comment c => rfl
  | name n => rfl
  | type t =>
    change t.walk = _
    cases t with
    | named t => rfl
    | list loc inner => simp [parts, TypeRef.parts, TypeRef.walk, List.filterMap_cons]
    | nonNull loc inner =>
      simp [parts, TypeRef.parts, TypeRef.walk, List.filterMap_cons]
  | definition d =>
    change d.walk = _
    cases d with
    | object o =>
      simp [parts, Definition.parts, Definition.walk, ObjectType.walk, ObjectType.parts,
        List.filterMap_cons, interfaces, fields]
    | interface loc name fs =>
      simp [parts, Definition.parts, Definition.walk, List.filterMap_cons, fields]
    | union loc name members =>
      simp [parts, Definition.parts, Definition.walk, List.filterMap_cons,
        NamedType.walk_flatMap]
    | scalar loc name => rfl
    | enum loc name members =>
      have values : Element.walk EnumMember.walk members =
          (members.map (Element.node .enumMember)).flatMap Node.walk :=
        Element.walk_eq EnumMember.walk _ (fun _ => rfl) members
      simp [parts, Definition.parts, Definition.walk, List.filterMap_cons, values]
    | input loc name fs =>
      simp [parts, Definition.parts, Definition.walk, List.filterMap_cons, inputs]
    | extension loc o =>
      simp [parts, Definition.parts, Definition.walk, List.filterMap_cons]
  | enumMember m => rfl
  | inputValue i =>
    change i.walk = _
    cases h : i.default <;>
      simp [parts, InputValue.parts, InputValue.walk, Value.defaultParts, h, List.filterMap_cons]
  | field f =>
    change f.walk = _
    cases h : f.arguments <;>
      simp [parts, Field.parts, Field.walk, Field.argumentParts, h, List.filterMap_cons, inputs]
  | value v =>
    change v.walk = _
    cases v <;>
      simp [parts, Value.parts, Value.walk, Value.walkElements_eq, Value.walkFields_eq,
        List.filterMap_cons]
  | objectField f =>
    change f.walk = _
    cases f
    simp [parts, ObjectField.parts, ObjectField.walk, List.filterMap_cons]

/-- The nodes of a part. -/
def Part.walk : Part L → List (Node L)
  | .node n => n.walk
  | _ => []

theorem Node.walk_eq_parts (n : Node L) : n.walk = n.parts.flatMap Part.walk ++ [n] := by
  have h (ps : List (Part L)) :
      (ps.filterMap Part.node?).flatMap Node.walk = ps.flatMap Part.walk := by
    induction ps with
    | nil => rfl
    | cons p ps ih => cases p <;> simp [Part.node?, Part.walk, ← ih, List.filterMap_cons]
  rw [walk_eq, children, h]

theorem Node.self_mem_walk (n : Node L) : n ∈ n.walk := by
  rw [walk_eq]
  simp

end SchemaDoc
