import SchemaDoc.Grammar.Values
import SchemaDoc.Proofs.Grammar.Numeral
import SchemaDoc.Syntax.Walk

/-! # Well-formed trees

What a tree must satisfy to be the tree of some text is a condition on each of its
nodes alone. It concerns spellings: which words may be names in which place,
which texts are comments, numbers and strings. Whether variables are admitted
depends on where a value stands.
-/

namespace SchemaDoc

open Grammar

variable {L : Type}

/-- A name that is none of the reserved words. -/
def Name.IsFree (n : Name L) : Prop := isReserved n.text = false

def TypeRef.Admissible : TypeRef L → Prop
  | .named t => t.name.IsFree
  | .list _ _ => True
  | .nonNull _ t => t.kind ≠ .nonNullType

def Value.Admissible (k : Constancy) : Value L → Prop
  | .variable _ name => k = .variable ∧ name.IsFree
  | .number _ n => IsNumber n.literal ∧ Decimal.ofLiteral? n.literal = some n.exact
  | .string _ text => ∀ b ∈ text, 0x20 ≤ b
  | .boolean _ _ => True
  | .enum _ name => name.IsFree ∧ name.text ≠ bytes "true" ∧ name.text ≠ bytes "false"
  | .list _ _ => True
  | .object _ _ => True

def Definition.Admissible : Definition L → Prop
  | .object o => o.name.IsFree
  | .interface _ name _ => name.IsFree
  | .union _ name members => name.IsFree ∧ members ≠ []
  | .scalar _ name => name.IsFree
  | .enum _ name _ => name.IsFree
  | .input _ name _ => name.IsFree
  | .extension _ _ => True

/-- The condition on a single node, whatever stands beneath it. -/
def Node.Admissible (k : Constancy) : Node L → Prop
  | .document _ => True
  | .comment c => IsComment c.text
  | .name n => IsIdentifier n.text
  | .type t => t.Admissible
  | .definition d => d.Admissible
  | .enumMember m => m.name.IsFree
  | .inputValue _ => True
  | .field _ => True
  | .value v => v.Admissible k
  | .objectField _ => True

instance (n : Name L) : Decidable n.IsFree := inferInstanceAs (Decidable (_ = false))

instance : (t : TypeRef L) → Decidable t.Admissible
  | .named t => inferInstanceAs (Decidable t.name.IsFree)
  | .list _ _ => .isTrue trivial
  | .nonNull _ t => inferInstanceAs (Decidable (t.kind ≠ .nonNullType))

instance (k : Constancy) : (v : Value L) → Decidable (v.Admissible k)
  | .variable _ name => inferInstanceAs (Decidable (k = .variable ∧ name.IsFree))
  | .number _ n =>
    inferInstanceAs (Decidable (IsNumber n.literal ∧ Decimal.ofLiteral? n.literal = some n.exact))
  | .string _ text => decidable_of_iff (text.all (0x20 ≤ ·) = true) (by simp [Value.Admissible])
  | .boolean _ _ => .isTrue trivial
  | .enum _ name => inferInstanceAs
    (Decidable (name.IsFree ∧ name.text ≠ bytes "true" ∧ name.text ≠ bytes "false"))
  | .list _ _ => .isTrue trivial
  | .object _ _ => .isTrue trivial

instance : (d : Definition L) → Decidable d.Admissible
  | .object o => inferInstanceAs (Decidable o.name.IsFree)
  | .interface _ name _ => inferInstanceAs (Decidable name.IsFree)
  | .union _ name members =>
    have : Decidable (members ≠ []) := decidable_of_iff (members.isEmpty = false) (by simp)
    inferInstanceAs (Decidable (name.IsFree ∧ members ≠ []))
  | .scalar _ name => inferInstanceAs (Decidable name.IsFree)
  | .enum _ name _ => inferInstanceAs (Decidable name.IsFree)
  | .input _ name _ => inferInstanceAs (Decidable name.IsFree)
  | .extension _ _ => .isTrue trivial

instance (k : Constancy) : (n : Node L) → Decidable (n.Admissible k)
  | .document _ => .isTrue trivial
  | .comment c => inferInstanceAs (Decidable (IsComment c.text))
  | .name n => inferInstanceAs (Decidable (IsIdentifier n.text))
  | .type t => inferInstanceAs (Decidable t.Admissible)
  | .definition d => inferInstanceAs (Decidable d.Admissible)
  | .enumMember m => inferInstanceAs (Decidable m.name.IsFree)
  | .inputValue _ => .isTrue trivial
  | .field _ => .isTrue trivial
  | .value v => inferInstanceAs (Decidable (v.Admissible k))
  | .objectField _ => .isTrue trivial

/-- Every node of the tree is admissible, and there are no variables. -/
def Document.WellFormed (d : Document L) : Prop := ∀ n ∈ d.walk, n.Admissible .constant

instance (d : Document L) : Decidable d.WellFormed :=
  inferInstanceAs (Decidable (∀ n ∈ d.walk, n.Admissible .constant))

end SchemaDoc
