import SchemaDoc.Pass.Printed
import SchemaDoc.Proofs.Json.Infinite
import SchemaDoc.Proofs.Number.Overflow
import SchemaDoc.Proofs.Tree.Gathering

/-! # Documents that cannot be written

In the data of a tree stand the binary numbers of its number literals. A document
has no JSON when one of these is infinite, which is a matter of the exact value of
the literal, wherever it stands. Every document has a text in the other formats,
and none in a format that is not known.
-/

namespace SchemaDoc

theorem Data.gathers_numbers : Data.Gathers numbers (fun _ _ => []) fun x => [x] where
  null := rfl
  boolean _ := rfl
  number _ := rfl
  text _ := rfl
  list := itemNumbers_eq
  node kind loc parts := by simp [nodeTree, numbers, Span.tree, nat]

/-- The numbers in the data of a node are those of its literals. -/
theorem Node.numbers_tree_perm (n : Node Span) :
    n.tree.numbers.Perm (n.numerals.map fun m => m.exact.toBinary64) := by
  have hwalk : n.walk.flatMap (own (fun _ _ => []) fun x => [x]) =
      n.numerals.map fun m => m.exact.toBinary64 := by
    rw [numerals, List.map_filterMap, List.filterMap_eq_flatMap_toList]
    refine List.flatMap_congr fun m _ => ?_
    rw [own]
    cases m.numeral? <;> rfl
  rw [← hwalk]
  exact gathered_tree_perm Data.gathers_numbers n

theorem Json.exists_infinite?_iff {xs : List Binary64} :
    (∃ e, infinite? xs = some e) ↔ ∃ x ∈ xs, x.isInfinite = true := by
  rw [← Option.isSome_iff_exists, infinite?, Option.isSome_map, List.find?_isSome]

namespace OutputFormat

variable {name : Bytes} {d : Data} {p : OutputProblem}

theorem ofName_eq_error_iff :
    ofName name = .error p ↔
      name ∉ [bytes "json", bytes "yaml", bytes "none"] ∧ p = .unknownFormat name := by
  rw [ofName]
  split_ifs <;> simp_all [eq_comm]

theorem ofName_eq_json_iff : ofName name = .ok .json ↔ name = bytes "json" := by
  rw [ofName]
  split_ifs <;> simp_all

/-- JSON is the only format that cannot show all data. -/
theorem write_eq_error_iff {f : OutputFormat} :
    f.write d = .error p ↔
      f = .json ∧ ∃ e, Json.infinite? d.numbers = some e ∧ p = .infiniteNumber e.negative := by
  cases f with
  | none => simp [write]
  | yaml => simp [write]
  | json =>
    have hjson (e : Json.Infinite) := Json.write_eq_error_iff .indented 0 d (e := e)
    rw [write, Json.writeIndented]
    cases h : Json.write .indented 0 d with
    | error e =>
      rw [(hjson e).mp h]
      simp [Except.map, eq_comm]
    | ok text =>
      have hnone : Json.infinite? d.numbers = Option.none :=
        Option.eq_none_iff_forall_ne_some.mpr fun e he => by simpa [h] using (hjson e).mpr he
      simp [Except.map, hnone]

end OutputFormat

namespace Document

variable {d : Document Span} {name : Bytes}

/-- One of the number literals of a document, at whatever depth, has no finite number: its exact
value is at least halfway behind the greatest finite one. -/
def HasInfinite (d : Document Span) : Prop :=
  ∃ n ∈ (Node.document d).numerals, 2 ^ 1024 - 2 ^ 970 ≤ |n.exact.value|

theorem hasInfinite_iff : d.HasInfinite ↔ ∃ e, Json.infinite? d.tree.numbers = some e := by
  have hperm : d.tree.numbers.Perm ((Node.document d).numerals.map fun m => m.exact.toBinary64) :=
    (Node.document d).numbers_tree_perm
  simp only [Json.exists_infinite?_iff, hperm.mem_iff, List.mem_map, exists_exists_and_eq_and,
    Decimal.isInfinite_toBinary64_iff]
  rfl

theorem write_eq_error_iff {p : OutputProblem} :
    d.write name = .error p ↔
      (name = bytes "json" ∧
        ∃ e, Json.infinite? d.tree.numbers = some e ∧ p = .infiniteNumber e.negative) ∨
      (name ∉ [bytes "json", bytes "yaml", bytes "none"] ∧ p = .unknownFormat name) := by
  rw [← OutputFormat.ofName_eq_error_iff, ← OutputFormat.ofName_eq_json_iff, write]
  cases hname : OutputFormat.ofName name with
  | error q => simp
  | ok f => simp [OutputFormat.write_eq_error_iff]

/-- A document cannot be written just when the name of the format is not known, or when it is that
of JSON and one of the number literals has no finite number. Written to an open output, a document
that cannot be written leaves nothing there, and any other one leaves its whole text. -/
theorem write_fails_iff (d : Document Span) (name : Bytes) :
    ((∃ p, d.write name = .error p) ↔
      (name = bytes "json" ∧ d.HasInfinite) ∨
        name ∉ [bytes "json", bytes "yaml", bytes "none"]) ∧
    Pass.Printed.ofTexts true [d.write name] =
      match d.write name with
      | .ok text => ⟨text, none⟩
      | .error p => ⟨[], some (.output p)⟩ := by
  constructor
  · simp only [write_eq_error_iff, hasInfinite_iff]
    constructor
    · rintro ⟨p, ⟨hname, e, he, -⟩ | ⟨hname, -⟩⟩
      · exact .inl ⟨hname, e, he⟩
      · exact .inr hname
    · rintro (⟨hname, e, he⟩ | hname)
      · exact ⟨_, .inl ⟨hname, e, he, rfl⟩⟩
      · exact ⟨_, .inr ⟨hname, rfl⟩⟩
  · cases d.write name with
    | error p => rfl
    | ok text => simp [Pass.Printed.ofTexts]

end Document

end SchemaDoc
