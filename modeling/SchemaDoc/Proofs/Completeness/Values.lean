import SchemaDoc.Proofs.Completeness.Types
import SchemaDoc.Proofs.Soundness.Values

/-! # What is written is matched: values

Which alternative matches a value is decided by its first character, except for
words: the truth values are tried in front of the enum literals, and an enum
literal is neither of them.
-/

namespace SchemaDoc.Grammar

variable {L : Type} {α β : Type} {k : Constancy} {g : Span → L} {c d : Cursor} {loc : L}

theorem Yields.orElse_left {rule other : Rule α} {f : α → β} {b : β} (h : Yields rule f b c d) :
    Yields (fun c => (rule c).orElse fun _ => other c) f b c d := by
  obtain ⟨a, ha, hf⟩ := h
  exact ⟨a, by simp only [ha, Outcome.orElse], hf⟩

theorem Yields.orElse_right {rule other : Rule α} {f : α → β} {b : β} (h : rule c = .noMatch c)
    (ho : Yields other f b c d) : Yields (fun c => (rule c).orElse fun _ => other c) f b c d := by
  obtain ⟨a, ha, hf⟩ := ho
  exact ⟨a, by simp only [h, ha, Outcome.orElse], hf⟩

theorem Needs.orElse {p : UInt8 → Bool} {rule other : Rule α} (h : Needs p rule)
    (ho : Needs p other) : Needs p fun c => (rule c).orElse fun _ => other c := by
  intro c hc
  simp only [h c hc, ho c hc, Outcome.orElse]

theorem variableValue_needs : Needs (· == 0x24) variableValue :=
  (Needs.literal "$" rfl fun c hc => by simp only [hc]).positioned

theorem variableValue_yields {n : Name L}
    (h : Written k g [.node (.value (.variable loc n))] c d) :
    Yields variableValue (Value.map g) (.variable loc n) c d := by
  obtain ⟨⟨-, hfree⟩, hloc, hparts⟩ := Written.single_iff.mp h
  obtain ⟨m, hdollar, hname⟩ := Written.mark_iff.mp hparts
  obtain ⟨x, hx, rfl⟩ := name_yields hfree hname
  refine .positioned (w := fun loc => .variable loc x) ?_ (by simp) hparts.reaches ?_
  · simp only [literal?_of_reads (hdollar.congr (e := c.skipTrivia) (by simp)), hx, Outcome.require,
      Outcome.map, Outcome.andThen]
  · rw [Value.map, ← hloc]
    rfl

theorem numberValue_needs : Needs Lexeme.number.starts numberValue :=
  (Needs.lexeme (l := .number) fun c hc => by simp only [hc]).positioned

theorem starts_of_number {n : Numeral} (h : Written k g [.node (.value (.number loc n))] c d) :
    c.Starts Lexeme.number.starts := by
  obtain ⟨-, -, hparts⟩ := Written.single_iff.mp h
  obtain ⟨m, hm, -⟩ := Written.token_iff.mp hparts
  obtain ⟨b, s, hs, hb⟩ := Lexeme.exists_first (l := .number) hm.2
  exact ⟨b, s, by rw [← hs]; exact hm.1.1, hb⟩

theorem numberValue_yields {n : Numeral} (h : Written k g [.node (.value (.number loc n))] c d) :
    Yields numberValue (Value.map g) (.number loc n) c d := by
  obtain ⟨⟨-, hexact⟩, hloc, hparts⟩ := Written.single_iff.mp h
  obtain ⟨m, hm, hd⟩ := Written.token_iff.mp hparts
  have hl := Token.lexeme?_number_eq_some_iff.mpr (hm.congr (e := c.skipTrivia) (by simp))
  refine .positioned (w := fun loc => .number loc n) (by simp only [hl, hexact])
    (Written.nil_iff.mp hd) ⟨_, hm.1⟩ ?_
  rw [Value.map, ← hloc]
  rfl

theorem stringValue_needs : Needs (· == 0x22) stringValue :=
  (Needs.lexeme (l := .string) fun c hc => by simp only [hc]).positioned

private theorem mem_of_mem_escape {b : UInt8} {s : Bytes} (h : b ∈ escape s) :
    b = 0x5C ∨ b ∈ s := by
  induction s with
  | nil => simp [escape] at h
  | cons x s ih =>
    rw [escape] at h
    split at h <;> simp only [List.mem_cons] at h ⊢ <;> grind

theorem stringValue_yields {text : Bytes}
    (h : Written k g [.node (.value (.string loc text))] c d) :
    Yields stringValue (Value.map g) (.string loc text) c d := by
  obtain ⟨hprintable, hloc, hparts⟩ := Written.single_iff.mp h
  obtain ⟨m, hm, hd⟩ := Written.token_iff.mp hparts
  have hl := Token.lexeme?_string_eq_some_iff.mpr
    ⟨text, rfl, hm.congr (e := c.skipTrivia) (by simp)⟩
  have hcontrol : (quote text).any (· < 0x20) = false := by
    rw [List.any_eq_false]
    intro b hb
    have hb' : b = 0x22 ∨ b = 0x5C ∨ b ∈ text := by
      simp only [quote, List.mem_cons, List.mem_append, List.not_mem_nil, or_false] at hb
      rcases hb with rfl | hb | rfl
      · exact .inl rfl
      · exact .inr (mem_of_mem_escape hb)
      · exact .inl rfl
    rcases hb' with rfl | rfl | hb
    · decide
    · decide
    · simpa using hprintable b hb
  refine .positioned (w := fun loc => .string loc text) ?_ (Written.nil_iff.mp hd) ⟨_, hm.1⟩ ?_
  · simp only [hl, hcontrol, Bool.false_eq_true, if_false, inner_quote, unescape_escape]
  · rw [Value.map, ← hloc]
    rfl

theorem booleanValue_needs : Needs isNameStart booleanValue := by
  refine Needs.positioned fun c hc => ?_
  have htrue : c.keyword? (bytes "true") = none :=
    Cursor.keyword?_eq_none (Stops.mono hc fun b hb => by rw [eq_of_beq hb]; rfl) _
  have hfalse : c.keyword? (bytes "false") = none :=
    Cursor.keyword?_eq_none (Stops.mono hc fun b hb => by rw [eq_of_beq hb]; rfl) _
  simp only [htrue, hfalse]

theorem booleanValue_yields {b : Bool} (h : Written k g [.node (.value (.boolean loc b))] c d) :
    Yields booleanValue (Value.map g) (.boolean loc b) c d := by
  obtain ⟨-, hloc, hparts⟩ := Written.single_iff.mp h
  obtain ⟨m, hm, hd⟩ := Written.token_iff.mp hparts
  have hm' := hm.congr (e := c.skipTrivia) (by simp)
  refine .positioned (w := fun loc => .boolean loc b) ?_ (Written.nil_iff.mp hd) ⟨_, hm.1⟩ ?_
  · cases b with
    | true =>
      have htrue := (Token.keyword?_eq_some_iff (s := bytes "true") (by decide)).mpr hm'
      simp only [htrue]
    | false =>
      have htrue := Token.keyword?_eq_none_of_ne (s := bytes "true") (by decide) hm' (by decide)
      have hfalse := (Token.keyword?_eq_some_iff (s := bytes "false") (by decide)).mpr hm'
      simp only [htrue, hfalse]
  · rw [Value.map, ← hloc]
    rfl

theorem enumValue_needs : Needs isNameStart enumValue := (name_needs.map _).positioned

theorem enumValue_yields {n : Name L} (h : Written k g [.node (.value (.enum loc n))] c d) :
    Yields enumValue (Value.map g) (.enum loc n) c d := by
  obtain ⟨⟨hfree, -⟩, hloc, hparts⟩ := Written.single_iff.mp h
  obtain ⟨x, hx, rfl⟩ := name_yields hfree (hparts.congr_left (e := c.skipTrivia) (by simp))
  refine .positioned (w := fun loc => .enum loc x) (by rw [hx]; rfl) (by simp) hparts.reaches ?_
  rw [Value.map, ← hloc]
  rfl

/-- Where an enum literal stands there is no truth value. -/
theorem booleanValue_of_enum {n : Name L} (h : Written k g [.node (.value (.enum loc n))] c d) :
    booleanValue c = .noMatch c := by
  obtain ⟨⟨-, htrue, hfalse⟩, -, hparts⟩ := Written.single_iff.mp h
  obtain ⟨-, -, hname⟩ := Written.single_iff.mp hparts
  obtain ⟨m, hm, -⟩ := Written.token_iff.mp hname
  have hm' := hm.congr (e := c.skipTrivia) (by simp)
  apply positioned_of_noMatch (d := c.skipTrivia)
  simp only [Token.keyword?_eq_none_of_ne (s := bytes "true") (by decide) hm' htrue,
    Token.keyword?_eq_none_of_ne (s := bytes "false") (by decide) hm' hfalse]

/-- The bytes that start a value. -/
def valueStarts (b : UInt8) : Bool :=
  b == 0x24 || Lexeme.number.starts b || b == 0x22 || isNameStart b || b == 0x5B || b == 0x7B

section Nested

variable {item : Rule (Value Span)} {bound : Nat}
  (hitem : ∀ v c d, c.rest.length < bound → Written k g [.node (.value v)] c d →
    Yields item (Value.map g) v c d)

theorem listValueOf_needs (item : Rule (Value Span)) : Needs (· == 0x5B) (listValueOf item) :=
  (Needs.literal "[" rfl fun c hc => by simp only [hc]).positioned

theorem objectFieldOf_needs (item : Rule (Value Span)) : Needs isNameStart (objectFieldOf item) :=
  (memberName_needs.andThen _).positioned

theorem objectValueOf_needs (item : Rule (Value Span)) : Needs (· == 0x7B) (objectValueOf item) :=
  (Needs.literal "\x7b" rfl fun c hc => by simp only [hc]).positioned

theorem starts_of_value {v : Value L} (h : Written k g [.node (.value v)] c d) :
    c.Starts valueStarts := by
  obtain ⟨-, -, hparts⟩ := Written.single_iff.mp h
  have name {n : Name L} {ps : List (Part L)} {c d : Cursor} (h : Written k g (.name n :: ps) c d) :
      c.Starts valueStarts :=
    (starts_of_name h).mono fun b hb => by simp [valueStarts, hb]
  cases v with
  | «variable» loc n => exact (Written.mark_iff.mp hparts).choose_spec.1.starts rfl
  | number loc n => exact (starts_of_number h).mono fun b hb => by simp [valueStarts, hb]
  | string loc text => exact (Written.token_iff.mp hparts).choose_spec.1.starts rfl
  | boolean loc b =>
    have hm := (Written.token_iff.mp hparts).choose_spec.1
    cases b <;> exact hm.starts rfl
  | enum loc n => exact name hparts
  | list loc es => exact (Written.mark_iff.mp hparts).choose_spec.1.starts rfl
  | object loc fields => exact (Written.mark_iff.mp hparts).choose_spec.1.starts rfl

include hitem

theorem listValueOf_yields {es : List (Element L (Value L))} (hneeds : Needs valueStarts item)
    (hc : c.rest.length ≤ bound) (h : Written k g [.node (.value (.list loc es))] c d) :
    Yields (listValueOf item) (Value.map g) (.list loc es) c d := by
  obtain ⟨-, hloc, hparts⟩ := Written.single_iff.mp h
  have hle := c.reaches_skipTrivia.length_le
  have hlisted : Listed k g valueStarts item (Value.map g) .value (fun _ _ => True) bound := {
    yields := fun v c d hc h _ => hitem v c d hc h
    starts := fun v c d h => starts_of_value h
    inner := fun _ => id
    follow := fun _ _ _ => trivial
    apart := rfl }
  obtain ⟨m, xs, n, e, hopen, hxs, hclose, rfl, hskip, hreach⟩ :=
    hlisted.bracketed_yields hneeds (c := c.skipTrivia) (by omega)
      (fun _ _ hm => ⟨hm.avoids rfl, fun _ => trivial⟩) (hparts.congr_left (by simp))
  rw [Cursor.skipTrivia_skipTrivia] at hreach
  refine .positioned (w := fun loc => .list loc xs) ?_ hskip hreach ?_
  · simp only [hopen, hxs, Outcome.andThen, Outcome.map, hclose]
  · rw [Value.map, Value.mapElements_eq, ← hloc]
    rfl

theorem objectFieldOf_yields {field : ObjectField L} (hc : c.rest.length ≤ bound)
    (h : Written k g [.node (.objectField field)] c d) :
    Yields (objectFieldOf item) (ObjectField.map g) field c d := by
  obtain ⟨loc, n, v⟩ := field
  obtain ⟨-, hloc, hparts⟩ := Written.single_iff.mp h
  obtain ⟨m, hname, hrest⟩ := Written.cons_iff.mp hparts
  obtain ⟨e, hcolon, hvalue⟩ := Written.mark_iff.mp hrest
  have hlt := (hcolon.congr (e := m.skipTrivia) (by simp)).length_lt
  have hle := (c.reaches_skipTrivia.trans hname.reaches).length_le
  obtain ⟨x, hx, rfl⟩ := memberName_yields (hname.congr_left (e := c.skipTrivia) (by simp))
  obtain ⟨y, hy, rfl⟩ := hitem v e d (by omega) hvalue
  refine .positioned (w := fun loc => .mk loc x y) ?_ (by simp) hparts.reaches ?_
  · simp only [hx, Outcome.andThen, expect_of_reads (hcolon.congr (e := m.skipTrivia) (by simp)),
      hy, Outcome.require, Outcome.map]
  · rw [ObjectField.map, ← hloc]
    rfl

theorem objectValueOf_yields {fields : List (Element L (ObjectField L))}
    (hc : c.rest.length ≤ bound) (h : Written k g [.node (.value (.object loc fields))] c d) :
    Yields (objectValueOf item) (Value.map g) (.object loc fields) c d := by
  obtain ⟨-, hloc, hparts⟩ := Written.single_iff.mp h
  have hle := c.reaches_skipTrivia.length_le
  have hlisted : Listed k g isNameStart (objectFieldOf item) (ObjectField.map g) .objectField
      (fun _ _ => True) bound := {
    yields := fun field c d hc h _ => objectFieldOf_yields hitem (by omega) h
    starts := fun ⟨_, _, _⟩ c d h => starts_of_name (Written.single_iff.mp h).2.2
    inner := fun _ => id
    follow := fun _ _ _ => trivial
    apart := rfl }
  obtain ⟨m, xs, n, e, hopen, hxs, hclose, rfl, hskip, hreach⟩ :=
    hlisted.bracketed_yields (objectFieldOf_needs item) (c := c.skipTrivia) (by omega)
      (fun _ _ hm => ⟨hm.avoids rfl, fun _ => trivial⟩) (hparts.congr_left (by simp))
  rw [Cursor.skipTrivia_skipTrivia] at hreach
  refine .positioned (w := fun loc => .object loc xs) ?_ hskip hreach ?_
  · simp only [hopen, hxs, Outcome.andThen, Outcome.map, hclose]
  · rw [Value.map, Value.mapFields_eq, ← hloc]
    rfl

end Nested

theorem valueWithin_needs (k : Constancy) (fuel : Nat) :
    Needs valueStarts (valueWithin k fuel) := by
  cases fuel with
  | zero => exact fun _ _ => rfl
  | succ fuel =>
    have hvariable : Needs valueStarts (variableWhere k) := by
      cases k
      · exact fun _ _ => rfl
      · exact variableValue_needs.mono fun b hb => by simp_all [valueStarts]
    exact hvariable.orElse <|
      (numberValue_needs.mono fun b hb => by simp [valueStarts, hb]).orElse <|
      (stringValue_needs.mono fun b hb => by simp_all [valueStarts]).orElse <|
      (booleanValue_needs.mono fun b hb => by simp [valueStarts, hb]).orElse <|
      (enumValue_needs.mono fun b hb => by simp [valueStarts, hb]).orElse <|
      ((listValueOf_needs _).mono fun b hb => by simp_all [valueStarts]).orElse <|
      (objectValueOf_needs _).mono fun b hb => by simp_all [valueStarts]

theorem starts_number_of_isNameStart {b : UInt8} (h : isNameStart b = true) :
    Lexeme.number.starts b = false := by
  simp only [isNameStart, Bytes.isLetter, Bytes.isUpper, Bytes.isLower, Bool.or_eq_true,
    Bool.and_eq_true, decide_eq_true_eq, beq_iff_eq, UInt8.le_iff_toNat_le, UInt8.reduceToNat,
    ← UInt8.toNat_inj] at h
  simp only [Lexeme.starts, Bytes.isDigit, Bool.or_eq_false_iff, Bool.and_eq_false_iff,
    beq_eq_false_iff_ne, decide_eq_false_iff_not, UInt8.le_iff_toNat_le, UInt8.reduceToNat, ne_eq,
    ← UInt8.toNat_inj]
  omega

theorem valueWithin_yields {fuel : Nat} {v : Value L} (hc : c.rest.length < fuel)
    (h : Written k g [.node (.value v)] c d) :
    Yields (valueWithin k fuel) (Value.map g) v c d := by
  induction fuel generalizing c v d with
  | zero => omega
  | succ fuel ih =>
    obtain ⟨hadmissible, -, hparts⟩ := Written.single_iff.mp h
    have novariable (hdollar : c.Avoids (· == 0x24)) : variableWhere k c = .noMatch c := by
      cases k
      · rfl
      · exact variableValue_needs c hdollar
    -- A word is no variable, number or string, a bracket is no word either.
    have word (hword : c.Starts isNameStart) : variableWhere k c = .noMatch c ∧
        numberValue c = .noMatch c ∧ stringValue c = .noMatch c :=
      ⟨novariable (hword.avoids_byte rfl),
        numberValue_needs c (hword.avoids fun _ => starts_number_of_isNameStart),
        stringValue_needs c (hword.avoids_byte rfl)⟩
    have bracket {s : Bytes} {m : Cursor} (hm : (Token.mark s).Reads c m)
        (hs : s = bytes "[" ∨ s = bytes "\x7b") : variableWhere k c = .noMatch c ∧
        numberValue c = .noMatch c ∧ stringValue c = .noMatch c ∧ booleanValue c = .noMatch c ∧
        enumValue c = .noMatch c := by
      have avoids (p : UInt8 → Bool) (hp : p 0x5B = false ∧ p 0x7B = false) : c.Avoids p := by
        rcases hs with rfl | rfl
        · exact hm.avoids hp.1
        · exact hm.avoids hp.2
      exact ⟨novariable (avoids _ ⟨rfl, rfl⟩), numberValue_needs c (avoids _ ⟨rfl, rfl⟩),
        stringValue_needs c (avoids _ ⟨rfl, rfl⟩), booleanValue_needs c (avoids _ ⟨rfl, rfl⟩),
        enumValue_needs c (avoids _ ⟨rfl, rfl⟩)⟩
    cases v with
    | «variable» loc n =>
      obtain ⟨rfl, -⟩ := hadmissible
      exact .orElse_left (variableValue_yields h)
    | number loc n =>
      have hstarts := starts_of_number h
      exact .orElse_right (novariable (hstarts.avoids_byte rfl)) <|
        .orElse_left (numberValue_yields h)
    | string loc text =>
      have hm := (Written.token_iff.mp hparts).choose_spec.1
      exact .orElse_right (novariable (hm.avoids rfl)) <|
        .orElse_right (numberValue_needs c (hm.avoids rfl)) <| .orElse_left (stringValue_yields h)
    | boolean loc b =>
      have hm := (Written.token_iff.mp hparts).choose_spec.1
      obtain ⟨hvariable, hnumber, hstring⟩ := word (by cases b <;> exact hm.starts rfl)
      exact .orElse_right hvariable <| .orElse_right hnumber <| .orElse_right hstring <|
        .orElse_left (booleanValue_yields h)
    | enum loc n =>
      obtain ⟨hvariable, hnumber, hstring⟩ := word (starts_of_name hparts)
      exact .orElse_right hvariable <| .orElse_right hnumber <| .orElse_right hstring <|
        .orElse_right (booleanValue_of_enum h) <| .orElse_left (enumValue_yields h)
    | list loc es =>
      obtain ⟨m, hm, -⟩ := Written.mark_iff.mp hparts
      obtain ⟨hvariable, hnumber, hstring, hboolean, henum⟩ := bracket hm (.inl rfl)
      exact .orElse_right hvariable <| .orElse_right hnumber <| .orElse_right hstring <|
        .orElse_right hboolean <| .orElse_right henum <| .orElse_left <|
        listValueOf_yields (fun _ _ _ => ih) (valueWithin_needs k fuel) (by omega) h
    | object loc fields =>
      obtain ⟨m, hm, -⟩ := Written.mark_iff.mp hparts
      obtain ⟨hvariable, hnumber, hstring, hboolean, henum⟩ := bracket hm (.inr rfl)
      exact .orElse_right hvariable <| .orElse_right hnumber <| .orElse_right hstring <|
        .orElse_right hboolean <| .orElse_right henum <|
        .orElse_right (listValueOf_needs _ c (hm.avoids rfl)) <|
        objectValueOf_yields (fun _ _ _ => ih) (by omega) h

theorem value_yields {v : Value L} (h : Written k g [.node (.value v)] c d) :
    Yields (value k) (Value.map g) v c d :=
  valueWithin_yields (Nat.lt_succ_self _) h

theorem defaultValue_needs : Needs (· == 0x3D) defaultValue :=
  Needs.literal "=" rfl fun c hc => by simp only [defaultValue, hc]

theorem defaultValue_yields {v : Value L}
    (h : Written .constant g [.mark "=", .node (.value v)] c d) :
    Yields defaultValue (Value.map g) v c d := by
  obtain ⟨m, hequals, hvalue⟩ := Written.mark_iff.mp h
  obtain ⟨x, hx, hmap⟩ := value_yields hvalue
  refine ⟨x, ?_, hmap⟩
  simp only [defaultValue, literal?_of_reads hequals, hx, Outcome.require]

end SchemaDoc.Grammar
