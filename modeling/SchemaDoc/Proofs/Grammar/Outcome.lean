import SchemaDoc.Grammar.Definitions
import SchemaDoc.Proofs.Layout.Written

/-! # When the combinators match

Each combinator matches exactly when its parts do, one behind the other. The
lemmas turn a match of a rule into matches of the smaller rules in it.
-/

namespace SchemaDoc.Grammar

variable {α β : Type} {c d : Cursor}

namespace Outcome

theorem andThen_eq_matched {o : Outcome α} {f : α → Cursor → Outcome β} {b : β} :
    o.andThen f = .matched b d ↔ ∃ a m, o = .matched a m ∧ f a m = .matched b d := by
  cases o with
  | matched a m =>
    constructor
    · exact fun h => ⟨a, m, rfl, h⟩
    · rintro ⟨_, _, ho, h⟩
      obtain ⟨rfl, rfl⟩ := matched.inj ho
      exact h
  | noMatch back => simp [andThen]
  | failed e => simp [andThen]

theorem map_eq_matched {o : Outcome α} {f : α → β} {b : β} :
    o.map f = .matched b d ↔ ∃ a, o = .matched a d ∧ f a = b := by
  rw [map, andThen_eq_matched]
  constructor
  · rintro ⟨a, m, rfl, h⟩
    obtain ⟨rfl, rfl⟩ := matched.inj h
    exact ⟨a, rfl, rfl⟩
  · rintro ⟨a, rfl, rfl⟩
    exact ⟨a, d, rfl, rfl⟩

theorem orElse_eq_matched {o : Outcome α} {f : Unit → Outcome α} {a : α} :
    o.orElse f = .matched a d ↔
      o = .matched a d ∨ (∃ back, o = .noMatch back) ∧ f () = .matched a d := by
  cases o <;> simp [orElse]

theorem backTo_eq_matched {o : Outcome α} {a : α} :
    o.backTo c = .matched a d ↔ o = .matched a d := by
  cases o <;> simp [backTo]

theorem require_eq_matched {o : Outcome α} {construct : Construct} {a : α} :
    o.require construct = .matched a d ↔ o = .matched a d := by
  cases o <;> simp [require, Cursor.fail]

end Outcome

theorem expect_eq_matched {token : Bytes} {u : Unit} :
    expect token c = .matched u d ↔ c.literal? token = some d := by
  rw [expect]
  cases c.literal? token <;> simp [Cursor.fail]

theorem optional_eq_matched {rule : Rule α} {o : Option α} :
    optional rule c = .matched o d ↔
      (∃ a, o = some a ∧ rule c = .matched a d) ∨ o = none ∧ rule c = .noMatch d := by
  rw [optional]
  cases rule c with
  | matched a m =>
    simp only [Outcome.matched.injEq, reduceCtorEq, and_false, or_false]
    constructor
    · rintro ⟨rfl, rfl⟩
      exact ⟨a, rfl, rfl, rfl⟩
    · rintro ⟨b, rfl, rfl, rfl⟩
      exact ⟨rfl, rfl⟩
  | noMatch back => simp [eq_comm]
  | failed e => simp

theorem afterKeyword_eq_matched {word : Bytes} {rule : Rule α} {a : α} :
    afterKeyword word rule c = .matched a d ↔
      ∃ m, c.keyword? word = some m ∧ rule m = .matched a d := by
  rw [afterKeyword]
  cases c.keyword? word <;> simp

theorem enclosed_eq_matched {opening closing : Bytes} {item : Rule α}
    {elements : List (Element Span α)} :
    enclosed opening closing item c = .matched elements d ↔
      ∃ m e, c.literal? opening = some m ∧ many item m = .matched elements e ∧
        e.literal? closing = some d := by
  simp only [enclosed, Outcome.andThen_eq_matched, Outcome.map_eq_matched, expect_eq_matched]
  constructor
  · rintro ⟨_, m, hm, es, e, hes, _, he, rfl⟩
    exact ⟨m, e, hm, hes, he⟩
  · rintro ⟨m, e, hm, hes, he⟩
    exact ⟨(), m, hm, elements, e, hes, (), he, rfl⟩

theorem exists_of_positioned {rule : Rule (Span → α)} {a : α}
    (h : positioned rule c = .matched a d) :
    ∃ f m loc, rule c.skipTrivia = .matched f m ∧ a = f loc := by
  obtain ⟨f, m, hf, hmatched⟩ := Outcome.andThen_eq_matched.mp (Outcome.backTo_eq_matched.mp h)
  exact ⟨f, m, _, hf, (Outcome.matched.inj hmatched).1.symm⟩

/-- A rule between trivia matches with the span up to where the inner rule ended. -/
theorem positioned_eq_matched {rule : Rule (Span → α)} {a : α}
    (h : positioned rule c = .matched a d) :
    ∃ f m, rule c.skipTrivia = .matched f m ∧ d = m.skipTrivia ∧
      (c.skipTrivia.Reaches m → a = f (c.spanTo m)) := by
  obtain ⟨f, m, hf, hmatched⟩ := Outcome.andThen_eq_matched.mp (Outcome.backTo_eq_matched.mp h)
  obtain ⟨ha, hd⟩ := Outcome.matched.inj hmatched
  refine ⟨f, m, hf, hd.symm, ?_⟩
  rintro ⟨w, hw, hm⟩
  rw [Cursor.spanTo_eq hw hm, ← ha]
  congr 4
  rw [hm, hw, Nat.add_sub_cancel_left, List.take_left]

theorem positioned_of_matched {rule : Rule (Span → α)} {f : Span → α} {m : Cursor}
    (h : rule c.skipTrivia = .matched f m) (hm : c.skipTrivia.Reaches m) :
    positioned rule c = .matched (f (c.spanTo m)) m.skipTrivia := by
  obtain ⟨w, hw, ho⟩ := hm
  rw [Cursor.spanTo_eq hw ho, positioned]
  simp only [h, Outcome.andThen, Outcome.backTo]
  rw [ho, hw, Nat.add_sub_cancel_left, List.take_left]

theorem positioned_of_noMatch {rule : Rule (Span → α)} (h : rule c.skipTrivia = .noMatch d) :
    positioned rule c = .noMatch c := by
  simp [positioned, h, Outcome.andThen, Outcome.backTo]

end SchemaDoc.Grammar
