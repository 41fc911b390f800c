import SchemaDoc.Proofs.Grammar.Outcome

/-! # Giving the cursor back

A rule that does not match gives back the very cursor it was given, in front of
the trivia and of any word that it has looked at. Between trivia this is so by
itself; the other rules are alternatives of such rules, or insist on a match
once their first token is there.
-/

namespace SchemaDoc.Grammar

variable {α β ε : Type} {c d : Cursor}

/-- A rule that gives back the cursor it was given where it does not match. -/
def Backtracks (rule : Rule α) : Prop := ∀ c d, rule c = .noMatch d → d = c

namespace Outcome

theorem andThen_eq_noMatch {o : Outcome α} {f : α → Cursor → Outcome β} :
    o.andThen f = .noMatch d ↔
      o = .noMatch d ∨ ∃ a m, o = .matched a m ∧ f a m = .noMatch d := by
  cases o with
  | matched a m =>
    constructor
    · exact fun h => .inr ⟨a, m, rfl, h⟩
    · rintro (h | ⟨_, _, ho, h⟩)
      · nomatch h
      · obtain ⟨rfl, rfl⟩ := matched.inj ho
        exact h
  | noMatch back => simp [andThen]
  | failed e => simp [andThen]

theorem map_eq_noMatch {o : Outcome α} {f : α → β} : o.map f = .noMatch d ↔ o = .noMatch d := by
  cases o <;> simp [map, andThen]

theorem orElse_eq_noMatch {o : Outcome α} {f : Unit → Outcome α} :
    o.orElse f = .noMatch d ↔ (∃ back, o = .noMatch back) ∧ f () = .noMatch d := by
  cases o <;> simp [orElse]

theorem eq_of_backTo {o : Outcome α} (h : o.backTo c = .noMatch d) : d = c := by
  cases o with
  | matched a m => nomatch h
  | noMatch back => exact (noMatch.inj h).symm
  | failed e => nomatch h

theorem require_ne_noMatch (o : Outcome α) (construct : Construct) (d : Cursor) :
    o.require construct ≠ .noMatch d := by
  cases o <;> simp [require, Cursor.fail]

end Outcome

theorem positioned_backtracks (rule : Rule (Span → α)) : Backtracks (positioned rule) :=
  fun _ _ h => Outcome.eq_of_backTo h

/-- What may be left out is left out without moving. -/
theorem Backtracks.optional_eq_matched {rule : Rule α} (h : Backtracks rule) {o : Option α} :
    optional rule c = .matched o d ↔
      (∃ a, o = some a ∧ rule c = .matched a d) ∨ o = none ∧ c = d ∧ rule c = .noMatch c := by
  rw [Grammar.optional_eq_matched]
  apply or_congr_right
  constructor
  · rintro ⟨ho, hd⟩
    obtain rfl := h c d hd
    exact ⟨ho, rfl, hd⟩
  · rintro ⟨ho, rfl, hd⟩
    exact ⟨ho, hd⟩

theorem expect_ne_noMatch (token : Bytes) (c d : Cursor) : expect token c ≠ .noMatch d := by
  rw [expect]
  cases c.literal? token <;> simp [Cursor.fail]

theorem manyWithin_ne_noMatch (onComment : OnComment ε) (item : Rule α) (wrap : α → ε) (n : Nat)
    (c d : Cursor) : manyWithin onComment item wrap n c ≠ .noMatch d := by
  induction n generalizing c with
  | zero => nofun
  | succ n ih =>
    rw [manyWithin]
    split
    · split
      · nofun
      · rw [Ne, Outcome.map_eq_noMatch]
        exact ih _
    · nofun
    · split
      · rw [Ne, Outcome.map_eq_noMatch]
        exact ih _
      · nofun
      · nofun

theorem many_ne_noMatch (item : Rule α) (c d : Cursor) : many item c ≠ .noMatch d :=
  manyWithin_ne_noMatch _ item _ _ c d

theorem enclosed_ne_noMatch (opening closing : Bytes) (item : Rule α) (c d : Cursor) :
    enclosed opening closing item c ≠ .noMatch d := by
  rw [enclosed, Ne, Outcome.andThen_eq_noMatch, not_or, not_exists]
  refine ⟨expect_ne_noMatch opening c d, fun _ => ?_⟩
  rintro ⟨m, -, h⟩
  rcases Outcome.andThen_eq_noMatch.mp h with h | ⟨elements, e, -, h⟩
  · exact many_ne_noMatch item m d h
  · exact expect_ne_noMatch closing e d (Outcome.map_eq_noMatch.mp h)

theorem afterKeyword_backtracks {word : Bytes} {rule : Rule α}
    (h : ∀ c d, rule c ≠ .noMatch d) : Backtracks (afterKeyword word rule) := by
  intro c d hd
  rw [afterKeyword] at hd
  split at hd
  · exact (Outcome.noMatch.inj hd).symm
  · exact absurd hd (h _ d)

theorem typeReferenceWithin_backtracks (n : Nat) : Backtracks (typeReferenceWithin n) := by
  cases n with
  | zero => exact fun c d h => (Outcome.noMatch.inj h).symm
  | succ n => exact positioned_backtracks _

theorem typeReference_backtracks : Backtracks typeReference :=
  fun c d h => typeReferenceWithin_backtracks _ c d h

/-- The last alternative of a value decides which cursor is given back. -/
theorem valueWithin_backtracks (k : Constancy) (n : Nat) : Backtracks (valueWithin k n) := by
  cases n with
  | zero => exact fun c d h => (Outcome.noMatch.inj h).symm
  | succ n =>
    intro c d h
    simp only [valueWithin, Outcome.orElse_eq_noMatch] at h
    exact positioned_backtracks _ c d h.2.2.2.2.2.2

theorem value_backtracks (k : Constancy) : Backtracks (value k) :=
  fun c d h => valueWithin_backtracks k _ c d h

theorem defaultValue_backtracks : Backtracks defaultValue := by
  intro c d h
  rw [defaultValue] at h
  split at h
  · exact (Outcome.noMatch.inj h).symm
  · exact absurd h (Outcome.require_ne_noMatch _ _ d)

theorem argumentsDefinition_backtracks : Backtracks argumentsDefinition := by
  intro c d h
  rw [argumentsDefinition] at h
  split at h
  · exact (Outcome.noMatch.inj h).symm
  · exact absurd h (enclosed_ne_noMatch _ _ _ c d)

theorem implementsInterfaces_backtracks : Backtracks implementsInterfaces := by
  refine afterKeyword_backtracks fun c d h => ?_
  rcases Outcome.andThen_eq_noMatch.mp h with h | ⟨elements, e, -, h⟩
  · exact many_ne_noMatch namedType c d h
  · nomatch h

theorem definition_backtracks : Backtracks definition := by
  intro c d h
  simp only [definition, Outcome.orElse_eq_noMatch] at h
  exact positioned_backtracks _ c d h.2.2.2.2.2.2

end SchemaDoc.Grammar
