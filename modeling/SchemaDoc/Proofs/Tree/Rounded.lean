import SchemaDoc.Proofs.Number.Rounding
import SchemaDoc.Proofs.Syntax.Map
import SchemaDoc.Tree

/-! # Rounded trees

A rounded tree has the same nodes at the same places as a tree, but of each
number literal only the binary number that it denotes is left. Rounding does not
change the data of a tree.
-/

namespace SchemaDoc

variable {L : Type}

namespace Numeral

/-- The binary number without any literal. -/
def ofBinary64 (x : Binary64) : Numeral := ⟨[], x.decimal⟩

def rounded (n : Numeral) : Numeral := .ofBinary64 n.exact.toBinary64

@[simp] theorem toBinary64_ofBinary64 (x : Binary64) : (ofBinary64 x).exact.toBinary64 = x :=
  x.toBinary64_decimal

@[simp] theorem toBinary64_rounded (n : Numeral) :
    n.rounded.exact.toBinary64 = n.exact.toBinary64 :=
  toBinary64_ofBinary64 _

end Numeral

mutual

def Value.rounded : Value L → Value L
  | .variable loc name => .variable loc name
  | .number loc n => .number loc n.rounded
  | .string loc text => .string loc text
  | .boolean loc b => .boolean loc b
  | .enum loc name => .enum loc name
  | .list loc elements => .list loc (Value.roundedElements elements)
  | .object loc fields => .object loc (Value.roundedFields fields)

def Value.roundedElements : List (Element L (Value L)) → List (Element L (Value L))
  | [] => []
  | .comment c :: rest => .comment c :: Value.roundedElements rest
  | .member v :: rest => .member v.rounded :: Value.roundedElements rest

def Value.roundedFields : List (Element L (ObjectField L)) → List (Element L (ObjectField L))
  | [] => []
  | .comment c :: rest => .comment c :: Value.roundedFields rest
  | .member f :: rest => .member f.rounded :: Value.roundedFields rest

def ObjectField.rounded : ObjectField L → ObjectField L
  | .mk loc name value => .mk loc name value.rounded

end

namespace Element

variable {α : Type}

/-- The elements with another member in the place of each member. -/
def onMembers (f : α → α) (elements : List (Element L α)) : List (Element L α) :=
  elements.map (Element.map id f)

@[simp] theorem onMembers_id (elements : List (Element L α)) : onMembers id elements = elements :=
  Element.map_id_list (fun _ => rfl) elements

end Element

def InputValue.rounded (i : InputValue L) : InputValue L :=
  { i with default := i.default.map Value.rounded }

def Field.rounded (f : Field L) : Field L :=
  { f with arguments := f.arguments.map (Element.onMembers InputValue.rounded) }

def ObjectType.rounded (o : ObjectType L) : ObjectType L :=
  { o with fields := Element.onMembers Field.rounded o.fields }

def Definition.rounded : Definition L → Definition L
  | .object o => .object o.rounded
  | .interface loc name fields => .interface loc name (Element.onMembers Field.rounded fields)
  | .union loc name members => .union loc name members
  | .scalar loc name => .scalar loc name
  | .enum loc name members => .enum loc name members
  | .input loc name fields => .input loc name (Element.onMembers InputValue.rounded fields)
  | .extension loc o => .extension loc o.rounded

/-- The document with all its numbers rounded. -/
def Document.rounded (d : Document L) : Document L :=
  { d with definitions := Element.onMembers Definition.rounded d.definitions }

mutual

theorem Value.tree_rounded : (v : Value Span) → v.rounded.tree = v.tree
  | .variable _ _ => rfl
  | .number _ n => by rw [Value.rounded, Value.tree, Value.tree, n.toBinary64_rounded]
  | .string _ _ => rfl
  | .boolean _ _ => rfl
  | .enum _ _ => rfl
  | .list _ elements => by
    rw [Value.rounded, Value.tree, Value.tree, Value.elementTrees_rounded elements]
  | .object _ fields => by
    rw [Value.rounded, Value.tree, Value.tree, Value.fieldTrees_rounded fields]

theorem Value.elementTrees_rounded : (elements : List (Element Span (Value Span))) →
    Value.elementTrees (Value.roundedElements elements) = Value.elementTrees elements
  | [] => rfl
  | .comment c :: rest => by
    rw [Value.roundedElements, Value.elementTrees, Value.elementTrees,
      Value.elementTrees_rounded rest]
  | .member v :: rest => by
    rw [Value.roundedElements, Value.elementTrees, Value.elementTrees, v.tree_rounded,
      Value.elementTrees_rounded rest]

theorem Value.fieldTrees_rounded : (fields : List (Element Span (ObjectField Span))) →
    Value.fieldTrees (Value.roundedFields fields) = Value.fieldTrees fields
  | [] => rfl
  | .comment c :: rest => by
    rw [Value.roundedFields, Value.fieldTrees, Value.fieldTrees, Value.fieldTrees_rounded rest]
  | .member f :: rest => by
    rw [Value.roundedFields, Value.fieldTrees, Value.fieldTrees, f.tree_rounded,
      Value.fieldTrees_rounded rest]

theorem ObjectField.tree_rounded : (f : ObjectField Span) → f.rounded.tree = f.tree
  | .mk _ _ value => by
    rw [ObjectField.rounded, ObjectField.tree, ObjectField.tree, value.tree_rounded]

end

theorem Element.trees_onMembers {α : Type} {tree : α → Data} {f : α → α}
    (h : ∀ a, tree (f a) = tree a) (elements : List (Element Span α)) :
    Element.trees tree (Element.onMembers f elements) = Element.trees tree elements := by
  rw [Element.trees, Element.trees, Element.onMembers, List.map_map]
  congr 1
  apply List.map_congr_left
  rintro (c | a) _
  · rfl
  · exact h a

theorem InputValue.tree_rounded (i : InputValue Span) : i.rounded.tree = i.tree := by
  simp only [InputValue.tree, InputValue.rounded, Option.map_map]
  rw [show Value.tree ∘ Value.rounded = Value.tree from funext Value.tree_rounded]

theorem Field.tree_rounded (f : Field Span) : f.rounded.tree = f.tree := by
  simp only [Field.tree, Field.rounded, Option.map_map]
  rw [show Element.trees InputValue.tree ∘ Element.onMembers InputValue.rounded =
    Element.trees InputValue.tree from funext (Element.trees_onMembers InputValue.tree_rounded)]

theorem ObjectType.tree_rounded (o : ObjectType Span) : o.rounded.tree = o.tree := by
  simp only [ObjectType.tree, ObjectType.rounded, Element.trees_onMembers Field.tree_rounded]

theorem Definition.tree_rounded (d : Definition Span) : d.rounded.tree = d.tree := by
  cases d with
  | object o => exact o.tree_rounded
  | interface loc name fields =>
    simp only [Definition.rounded, Definition.tree, Element.trees_onMembers Field.tree_rounded]
  | union loc name members => rfl
  | scalar loc name => rfl
  | enum loc name members => rfl
  | input loc name fields =>
    simp only [Definition.rounded, Definition.tree, Element.trees_onMembers InputValue.tree_rounded]
  | extension loc o => simp only [Definition.rounded, Definition.tree, o.tree_rounded]

/-- The data of a document does not tell more of a number than its rounded value. -/
theorem Document.tree_rounded (d : Document Span) : d.rounded.tree = d.tree := by
  simp only [Document.tree, Document.rounded, Element.trees_onMembers Definition.tree_rounded]

end SchemaDoc
