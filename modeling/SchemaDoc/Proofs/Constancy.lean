import SchemaDoc.Proofs.Completeness.Values
import SchemaDoc.Proofs.Progress.Production
import SchemaDoc.Proofs.Soundness.WellFormed

/-! # Constant values

Constant values and values with variables are read by two recursions that differ
in one alternative. What is matched by either is what is written, and whether
something is written depends on constancy only through the variables in it. So
both recursions match the same values, but for those with a variable somewhere.
-/

namespace SchemaDoc

def Node.IsConstant {L : Type} (n : Node L) : Prop := ∀ m ∈ n.walk, m.kind ≠ .variable

namespace Grammar

variable {L α : Type} {k : Constancy} {g : Span → L} {ps : List (Part L)} {c d : Cursor}

theorem admissible_constant_iff {n : Node L} :
    n.Admissible .constant ↔ n.Admissible .variable ∧ n.kind ≠ .variable := by
  constructor
  · intro h
    refine ⟨?_, h.kind_ne_variable⟩
    cases n with
    | value v =>
      cases v with
      | «variable» loc name => exact absurd rfl h.kind_ne_variable
      | _ => exact h
    | _ => exact h
  · rintro ⟨h, hkind⟩
    cases n with
    | value v =>
      cases v with
      | «variable» loc name => exact absurd rfl hkind
      | _ => exact h
    | _ => exact h

/-- Constancy is seen only where a node must be admissible. -/
theorem Written.of_admissible {k' : Constancy} (h : Written k g ps c d)
    (hps : ∀ n ∈ ps.flatMap Part.walk, n.Admissible k') : Written k' g ps c d := by
  induction h with
  | nil h => exact .nil h
  | token ht _ ih => exact .token ht (ih (by simpa [Part.walk] using hps))
  | omitted _ ih => exact .omitted (ih (by simpa [Part.walk] using hps))
  | kept ht _ ih => exact .kept ht (ih (by simpa [Part.walk] using hps))
  | @node n _ _ _ _ _ hloc _ _ ihn ih =>
    rw [List.flatMap_cons, Part.walk, Node.walk_eq_parts, List.forall_mem_append,
      List.forall_mem_append] at hps
    obtain ⟨⟨hparts, hself⟩, hrest⟩ := hps
    exact .node (hself n (List.mem_singleton_self n)) hloc (ihn hparts) (ih hrest)

theorem Written.constant_iff {n : Node L} : Written .constant g [.node n] c d ↔
    Written .variable g [.node n] c d ∧ n.IsConstant := by
  have hwalk : [Part.node n].flatMap Part.walk = n.walk := by simp [Part.walk]
  constructor
  · intro h
    have hn := h.admissible
    rw [hwalk] at hn
    refine ⟨h.of_admissible fun m hm => ?_, fun m hm => (hn m hm).kind_ne_variable⟩
    rw [hwalk] at hm
    exact (admissible_constant_iff.mp (hn m hm)).1
  · rintro ⟨h, hconstant⟩
    refine h.of_admissible fun m hm => ?_
    have hadmissible := h.admissible m hm
    rw [hwalk] at hm
    exact admissible_constant_iff.mpr ⟨hadmissible, hconstant m hm⟩

/-- The rule matches exactly where a node of the form `P` is written, with the trivia behind it. -/
def MatchesWritten (k : Constancy) (ofResult : α → Node Span) (P : α → Prop) (rule : Rule α) :
    Prop :=
  ∀ c a d, rule c = .matched a d ↔
    P a ∧ Written k id [.node (ofResult a)] c d ∧ d.skipTrivia = d

theorem MatchesWritten.of_yields {ofResult : α → Node Span} {P : α → Prop} {rule : Rule α}
    {f : α → α} (hf : ∀ a, f a = a)
    (hcovers : ∀ c a d, rule c = .matched a d →
      P a ∧ Covers k [.node (ofResult a)] c d ∧ d.skipTrivia = d)
    (hyields : ∀ c a d, P a → Written k id [.node (ofResult a)] c d → Yields rule f a c d) :
    MatchesWritten k ofResult P rule := by
  intro c a d
  constructor
  · intro h
    obtain ⟨hP, hcovers, hd⟩ := hcovers c a d h
    exact ⟨hP, hcovers.2, hd⟩
  · rintro ⟨hP, hwritten, hd⟩
    obtain ⟨b, hb, hba⟩ := hyields c a d hP hwritten
    rw [hb, hd, ← hba, hf]

theorem exists_of_bracketed {item : Rule α} {opening closing : Bytes}
    {make : Span → List (Element Span α) → Value Span} {v : Value Span}
    (h : positioned (fun c => match c.literal? opening with
      | none => .noMatch c
      | some next => (many item next).andThen fun elements next =>
        (expect closing next).map fun _ loc => make loc elements) c = .matched v d) :
    ∃ loc elements, v = make loc elements := by
  obtain ⟨f, m, loc, hf, rfl⟩ := exists_of_positioned h
  split at hf
  · simp at hf
  · simp only [Outcome.andThen_eq_matched, Outcome.map_eq_matched] at hf
    obtain ⟨elements, _, -, _, -, rfl⟩ := hf
    exact ⟨loc, elements, rfl⟩

theorem value_matchesWritten (k : Constancy) :
    MatchesWritten k .value (fun _ => True) (value k) := by
  refine .of_yields Value.map_id (fun c v d h => ?_) fun c v d _ => value_yields
  exact ⟨trivial, value_covers h, skipTrivia_of_value h⟩

theorem listValue_matchesWritten (k : Constancy) :
    MatchesWritten k .value (fun v => v.kind = .listValue) (listValue k) := by
  refine .of_yields Value.map_id (fun c v d h => ?_) fun c v d hv h => ?_
  · rw [listValue] at h
    have hcovers := listValueOf_covers (fun _ _ _ => value_covers) h
    obtain ⟨loc, elements, rfl⟩ := exists_of_bracketed h
    exact ⟨rfl, hcovers, skipTrivia_of_positioned h⟩
  · cases v with
    | list loc es =>
      have hneeds : Needs valueStarts (value k) := fun c hc => valueWithin_needs k _ c hc
      exact listValueOf_yields (fun _ _ _ _ => value_yields) hneeds (Nat.le_refl _) h
    | _ => simp [Value.kind] at hv

theorem objectField_matchesWritten (k : Constancy) :
    MatchesWritten k .objectField (fun _ => True) (objectField k) := by
  refine .of_yields ObjectField.map_id (fun c a d h => ?_) fun c a d _ h => ?_
  · rw [objectField] at h
    exact ⟨trivial, objectFieldOf_covers (fun _ _ _ => value_covers) h, skipTrivia_of_positioned h⟩
  · exact objectFieldOf_yields (fun _ _ _ _ => value_yields) (Nat.le_refl _) h

theorem objectValue_matchesWritten (k : Constancy) :
    MatchesWritten k .value (fun v => v.kind = .objectValue) (objectValue k) := by
  refine .of_yields Value.map_id (fun c v d h => ?_) fun c v d hv h => ?_
  · rw [objectValue] at h
    have hcovers := objectValueOf_covers (fun _ _ _ => value_covers) h
    obtain ⟨loc, fields, rfl⟩ := exists_of_bracketed h
    exact ⟨rfl, hcovers, skipTrivia_of_positioned h⟩
  · cases v with
    | object loc fields =>
      exact objectValueOf_yields (fun _ _ _ _ => value_yields) (Nat.le_refl _) h
    | _ => simp [Value.kind] at hv

/-- The constant form of a rule matches exactly what the other form matches without a variable in
it, and both stop at the same place. -/
def ConstantForm (ofResult : α → Node Span) (rule : Constancy → Rule α) : Prop :=
  ∀ c a d, rule .constant c = .matched a d ↔
    rule .variable c = .matched a d ∧ (ofResult a).IsConstant

theorem ConstantForm.of_matchesWritten {ofResult : α → Node Span} {P : α → Prop}
    {rule : Constancy → Rule α} (h : ∀ k, MatchesWritten k ofResult P (rule k)) :
    ConstantForm ofResult rule := by
  intro c a d
  rw [h .constant, h .variable, Written.constant_iff]
  constructor
  · rintro ⟨hP, ⟨hwritten, hconstant⟩, hd⟩
    exact ⟨⟨hP, hwritten, hd⟩, hconstant⟩
  · rintro ⟨⟨hP, hwritten, hd⟩, hconstant⟩
    exact ⟨hP, ⟨hwritten, hconstant⟩, hd⟩

/-- Values, lists, objects and their fields have constant forms. -/
theorem constantForm_values :
    ConstantForm .value value ∧ ConstantForm .value listValue ∧
      ConstantForm .value objectValue ∧ ConstantForm .objectField objectField :=
  ⟨.of_matchesWritten value_matchesWritten, .of_matchesWritten listValue_matchesWritten,
    .of_matchesWritten objectValue_matchesWritten, .of_matchesWritten objectField_matchesWritten⟩

/-- A variable inside of a list ends the reading of a constant value. -/
example : (∃ v d, value .variable (.ofBody (bytes "[$x]")) = .matched v d) ∧
    value .constant (.ofBody (bytes "[$x]")) =
      .failed ⟨1, .missingToken (bytes "]") (.character 0x24)⟩ :=
  ⟨⟨_, _, rfl⟩, rfl⟩

end Grammar

end SchemaDoc
