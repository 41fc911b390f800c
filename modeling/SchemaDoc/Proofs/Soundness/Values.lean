import SchemaDoc.Proofs.Soundness.Types

/-! # What values cover

The alternatives of a value are tried in order. An enum literal is matched only
where no truth value is, so it is spelled neither `true` nor `false`.
-/

namespace SchemaDoc.Grammar

variable {k : Constancy} {c d e : Cursor} {v : Value Span}

theorem variableValue_covers (h : variableValue c = .matched v d) :
    Covers .variable [.node (.value v)] c d := by
  refine .positioned .value h fun f m hf => ?_
  split at hf
  · simp at hf
  · next next hdollar =>
    simp only [Outcome.map_eq_matched, Outcome.require_eq_matched] at hf
    obtain ⟨n, hn, rfl⟩ := hf
    exact ⟨_, (Covers.mark (by decide) hdollar).cons (name_covers hn),
      fun loc => ⟨⟨rfl, (name_eq_matched.mp hn).2⟩, rfl, rfl⟩⟩

theorem numberValue_covers (h : numberValue c = .matched v d) :
    Covers k [.node (.value v)] c d := by
  refine .positioned .value h fun f m hf => ?_
  split at hf
  · simp at hf
  · next literal next hl =>
    split at hf
    · simp [Cursor.fail] at hf
    · next exact hexact =>
      obtain ⟨rfl, rfl⟩ := Outcome.matched.inj hf
      have hr := Token.lexeme?_number_eq_some_iff.mp hl
      exact ⟨_, .token hr, fun loc => ⟨⟨Token.isNumber_of_number? hr.2, hexact⟩, rfl, rfl⟩⟩

private theorem mem_escape {b : UInt8} {s : Bytes} (h : b ∈ s) : b ∈ escape s := by
  induction s with
  | nil => simp at h
  | cons x s ih =>
    rw [escape]
    rcases List.mem_cons.mp h with rfl | h <;> split <;> simp_all

theorem inner_quote (s : Bytes) : inner (quote s) = escape s := by
  simp [inner, quote]

theorem stringValue_covers (h : stringValue c = .matched v d) :
    Covers k [.node (.value v)] c d := by
  refine .positioned .value h fun f m hf => ?_
  split at hf
  · simp at hf
  · next literal next hl =>
    split at hf
    · simp [Cursor.fail] at hf
    · next hcontrol =>
      obtain ⟨rfl, rfl⟩ := Outcome.matched.inj hf
      obtain ⟨s, rfl, hr⟩ := Token.lexeme?_string_eq_some_iff.mp hl
      rw [inner_quote, unescape_escape]
      refine ⟨_, .token hr, fun loc => ⟨?_, rfl, rfl⟩⟩
      intro b hb
      have hmem : b ∈ quote s := by simp [quote, mem_escape hb]
      simp only [List.any_eq_true, not_exists, not_and, decide_eq_true_eq] at hcontrol
      exact UInt8.not_lt.mp (hcontrol b hmem)

theorem booleanValue_covers (h : booleanValue c = .matched v d) :
    Covers k [.node (.value v)] c d := by
  refine .positioned .value h fun f m hf => ?_
  split at hf
  · next next hl =>
    obtain ⟨rfl, rfl⟩ := Outcome.matched.inj hf
    exact ⟨[.word "true"], .word (by decide) hl, fun loc => ⟨trivial, rfl, rfl⟩⟩
  · split at hf
    · next next hl =>
      obtain ⟨rfl, rfl⟩ := Outcome.matched.inj hf
      exact ⟨[.word "false"], .word (by decide) hl, fun loc => ⟨trivial, rfl, rfl⟩⟩
    · simp at hf

private theorem keyword?_of_booleanValue (h : booleanValue c = .noMatch d) :
    c.skipTrivia.keyword? (bytes "true") = none ∧
      c.skipTrivia.keyword? (bytes "false") = none := by
  cases ht : c.skipTrivia.keyword? (bytes "true") with
  | some next => simp [booleanValue, positioned, ht, Outcome.andThen, Outcome.backTo] at h
  | none =>
    cases hf : c.skipTrivia.keyword? (bytes "false") with
    | some next => simp [booleanValue, positioned, ht, hf, Outcome.andThen, Outcome.backTo] at h
    | none => exact ⟨rfl, rfl⟩

theorem reads_of_covers_name {n : Name Span} (h : Covers k [.name n] c d) :
    ∃ m, (Token.word n.text).Reads c m := by
  obtain ⟨e, -, -, hn, -⟩ := Written.node_iff.mp h.2
  obtain ⟨m, hm, -⟩ := Written.token_iff.mp hn
  exact ⟨m, hm⟩

theorem enumValue_covers (h : enumValue c = .matched v d) (hb : booleanValue c = .noMatch e) :
    Covers k [.node (.value v)] c d := by
  refine .positioned .value h fun f m hf => ?_
  obtain ⟨n, hn, rfl⟩ := Outcome.map_eq_matched.mp hf
  have hcovers : Covers k [.name n] c.skipTrivia m := name_covers hn
  obtain ⟨e, he⟩ := reads_of_covers_name hcovers
  obtain ⟨htrue, hfalse⟩ := keyword?_of_booleanValue hb
  refine ⟨_, hcovers, fun loc => ⟨⟨(name_eq_matched.mp hn).2, ?_, ?_⟩, rfl, rfl⟩⟩
  · intro hn
    rw [hn] at he
    simp [(Token.keyword?_eq_some_iff (by decide)).mpr he] at htrue
  · intro hn
    rw [hn] at he
    simp [(Token.keyword?_eq_some_iff (by decide)).mpr he] at hfalse

section Nested

variable {item : Rule (Value Span)}
  (hitem : ∀ c v d, item c = .matched v d → Covers k [.node (.value v)] c d)

include hitem

theorem listValueOf_covers (h : listValueOf item c = .matched v d) :
    Covers k [.node (.value v)] c d := by
  refine .positioned .value h fun f m hf => ?_
  split at hf
  · simp at hf
  · next next hopen =>
    simp only [Outcome.andThen_eq_matched, Outcome.map_eq_matched, expect_eq_matched] at hf
    obtain ⟨elements, e, helements, _, hclose, rfl⟩ := hf
    exact ⟨_, (Covers.mark (by decide) hopen).cons ((many_covers hitem helements).append
      (.mark (by decide) hclose)), fun loc => ⟨trivial, rfl, rfl⟩⟩

theorem objectFieldOf_covers {a : ObjectField Span} (h : objectFieldOf item c = .matched a d) :
    Covers k [.node (.objectField a)] c d := by
  refine .positioned .objectField h fun f m hf => ?_
  simp only [Outcome.andThen_eq_matched, Outcome.map_eq_matched, expect_eq_matched,
    Outcome.require_eq_matched] at hf
  obtain ⟨n, e, hn, _, e', hcolon, v, hv, rfl⟩ := hf
  exact ⟨_, (memberName_covers hn).cons ((Covers.mark (by decide) hcolon).cons (hitem _ _ _ hv)),
    fun loc => ⟨trivial, rfl, rfl⟩⟩

theorem objectValueOf_covers (h : objectValueOf item c = .matched v d) :
    Covers k [.node (.value v)] c d := by
  refine .positioned .value h fun f m hf => ?_
  split at hf
  · simp at hf
  · next next hopen =>
    simp only [Outcome.andThen_eq_matched, Outcome.map_eq_matched, expect_eq_matched] at hf
    obtain ⟨fields, e, hfields, _, hclose, rfl⟩ := hf
    have hfield := fun c a d h => objectFieldOf_covers hitem (c := c) (a := a) (d := d) h
    exact ⟨_, (Covers.mark (by decide) hopen).cons ((many_covers hfield hfields).append
      (.mark (by decide) hclose)), fun loc => ⟨trivial, rfl, rfl⟩⟩

end Nested

theorem valueWithin_covers {fuel : Nat} (h : valueWithin k fuel c = .matched v d) :
    Covers k [.node (.value v)] c d := by
  induction fuel generalizing c v d with
  | zero => simp [valueWithin] at h
  | succ fuel ih =>
    simp only [valueWithin, Outcome.orElse_eq_matched] at h
    rcases h with h | ⟨-, h | ⟨-, h | ⟨-, h | ⟨⟨_, hb⟩, h | ⟨-, h | ⟨-, h⟩⟩⟩⟩⟩⟩
    · cases k
      · simp [variableWhere] at h
      · exact variableValue_covers h
    · exact numberValue_covers h
    · exact stringValue_covers h
    · exact booleanValue_covers h
    · exact enumValue_covers h hb
    · exact listValueOf_covers (fun _ _ _ => ih) h
    · exact objectValueOf_covers (fun _ _ _ => ih) h

theorem value_covers (h : value k c = .matched v d) : Covers k [.node (.value v)] c d :=
  valueWithin_covers h

theorem defaultValue_covers (h : defaultValue c = .matched v d) :
    Covers .constant [.mark "=", .node (.value v)] c d := by
  rw [defaultValue] at h
  split at h
  · simp at h
  · next next hequals =>
    exact (Covers.mark (by decide) hequals).cons (value_covers (Outcome.require_eq_matched.mp h))

end SchemaDoc.Grammar
