import SchemaDoc.Proofs.Completeness.Document
import SchemaDoc.Proofs.Composition.Moved
import SchemaDoc.Proofs.Layout.Extension
import SchemaDoc.Proofs.Progress.Recursion

/-! # Documents one behind the other

A text that parses can be put in front of any other text, with a line feed
between them: what is read of the second text is what is read of it alone, moved
behind the first. Only a union at the end of the first text could go on, with a
bar at the start of the second.
-/

namespace SchemaDoc

open Grammar

variable {first second : Bytes} {doc : Document Span}

theorem Document.written_append_line (h : Document.parse first = .ok doc) (second : Bytes) :
    Written .constant id (Node.document doc).parts (.ofBody (first ++ 0x0A :: second))
      ⟨first.length + 1, second⟩ := by
  obtain ⟨d, hwritten, -, hd⟩ := Document.written_of_parse h
  obtain ⟨qs, hplaced, hreading⟩ := hwritten.exists_placement
    (Node.parts_proper (k := .constant) (n := .document doc) trivial)
  refine (hplaced.written hwritten.admissible (hreading.extend_line second)).congr_right ?_
  have hline : Gap [0x0A] := by decide
  rw [Cursor.skipTrivia_extend, hd]
  exact Cursor.skipTrivia_gap_append hline first.length second

/-- Whether nothing at the start of a text can go on with the end of a document. -/
def Document.EndsBefore (doc : Document Span) (second : Bytes) : Prop :=
  (∀ loc name members, doc.definitions.getLast? ≠ some (.member (.union loc name members))) ∨
    (second.drop (triviaLength second)).head? ≠ some 0x7C

theorem Document.EndsBefore.follow (h : doc.EndsBefore second) (o : Nat) {t : Definition Span}
    (ht : doc.definitions.getLast? = some (.member t)) :
    definitionFollow t (Cursor.mk o second) := by
  cases t with
  | union loc name members =>
    rcases h with hunion | hbar
    · exact absurd ht (hunion loc name members)
    · change Stops (· == 0x7C) (second.drop (triviaLength second))
      cases hs : second.drop (triviaLength second) with
      | nil => exact stops_nil
      | cons b s =>
        rw [hs] at hbar
        simpa using hbar
  | _ => trivial

theorem Document.endsBefore_of_parse {e : Document Span} (doc : Document Span)
    (h : Document.parse second = .ok e) : doc.EndsBefore second := by
  right
  obtain ⟨d, hwritten, -, hd⟩ := Document.written_of_parse h
  have havoids : (Cursor.ofBody second).Avoids (· == 0x7C) := by
    cases hes : e.definitions with
    | nil =>
      have hnil : Written .constant id [] (Cursor.ofBody second) d := by
        simpa [Node.parts, Element.parts, hes] using hwritten
      rw [Cursor.Avoids, Written.nil_iff.mp hnil, hd]
      exact stops_nil
    | cons x xs =>
      have hcons : Written .constant id (Element.parts .definition (x :: xs))
          (Cursor.ofBody second) d := by
        rw [← hes]
        exact hwritten
      obtain ⟨m, hx, -⟩ := Written.cons_iff.mp hcons
      exact ((definition_listed 0).element_starts hx).avoids_byte rfl
  change Stops (· == 0x7C) (second.drop (triviaLength second)) at havoids
  intro hbar
  obtain ⟨s, hs⟩ := List.head?_eq_some_iff.mp hbar
  rw [hs, stops_cons] at havoids
  simp at havoids

/-- The definitions of the first text are read, and then those of the second text as they are read
behind the line feed. -/
theorem Document.many_append_line (h : Document.parse first = .ok doc)
    (hends : doc.EndsBefore second) :
    many definition (Cursor.ofBody (first ++ 0x0A :: second)).skipTrivia =
      (many definition (Cursor.mk (first.length + 1) second).skipTrivia).map
        (doc.definitions ++ ·) := by
  have hwritten := (Document.written_append_line h second).congr_left
    (e := (Cursor.ofBody (first ++ 0x0A :: second)).skipTrivia) (by simp)
  obtain ⟨xs, m, left, hxs, -, hskip, hself, hleft, hmany⟩ :=
    (definition_listed _).manyWithin_append hwritten (Nat.lt_succ_self _) (Nat.lt_succ_self _)
      fun t ht => hends.follow _ ht
  have hm : m = (Cursor.mk (first.length + 1) second).skipTrivia :=
    (hself (by simp)).symm.trans hskip
  rw [Element.map_id_list Definition.map_id] at hxs
  rw [many, hmany, hxs, many, hm]
  congr 1
  exact manyWithin_fuel definition_shortens (hm ▸ hleft) (Nat.lt_succ_self _)

/-- Behind a document the outcome is that of the further text alone. -/
theorem Document.document_of_many {c e : Cursor} {xs : List (Element Span (Definition Span))}
    (h : many definition c.skipTrivia = (many definition e.skipTrivia).map (xs ++ ·)) :
    (∃ a b m, document e = .matched a m ∧ document c = .matched b m ∧
      b.definitions = xs ++ a.definitions) ∨
    ∃ error, document e = .failed error ∧ document c = .failed error := by
  cases hmany : many definition e.skipTrivia with
  | matched ys m =>
    rw [hmany] at h
    cases hend : m.skipTrivia.isEnd with
    | true =>
      left
      simp only [document, positioned, h, hmany, Outcome.map, Outcome.andThen, hend, if_true]
      exact ⟨_, _, _, rfl, rfl, rfl⟩
    | false =>
      right
      simp only [document, positioned, h, hmany, Outcome.map, Outcome.andThen, hend,
        Bool.false_eq_true, if_false, Cursor.fail]
      exact ⟨_, rfl, rfl⟩
  | noMatch back => exact absurd hmany (many_ne_noMatch definition _ back)
  | failed error =>
    right
    rw [hmany] at h
    simp only [document, positioned, h, hmany, Outcome.map, Outcome.andThen]
    exact ⟨_, rfl, rfl⟩

theorem Document.parse_behind (h : Document.parse first = .ok doc)
    (hends : doc.EndsBefore second) :
    (∃ a b, Document.parse second = .ok a ∧
      Document.parse (first ++ 0x0A :: second) = .ok b ∧
      b.definitions = doc.definitions ++ (a.map (Span.shift (first.length + 1))).definitions) ∨
    ∃ offset cause, Document.parse second = .error ⟨offset, cause⟩ ∧
      Document.parse (first ++ 0x0A :: second) =
        .error ⟨offset + (first.length + 1), cause⟩ := by
  have hmoves := document_moves (n := first.length + 1) (Cursor.ofBody second)
  have hmove : (Cursor.ofBody second).move (first.length + 1) = ⟨first.length + 1, second⟩ := by
    simp only [Cursor.ofBody, Cursor.move, Nat.zero_add]
  rw [hmove] at hmoves
  have houtcome := Document.document_of_many (Document.many_append_line h hends)
  unfold Document.parse
  generalize document (.ofBody second) = o, document ⟨first.length + 1, second⟩ = o' at *
  rcases houtcome with ⟨a, b, m, rfl, hboth, hdefinitions⟩ | ⟨error, rfl, hboth⟩
  · cases hmoves with
    | matched m hmap =>
      left
      rw [hboth]
      exact ⟨_, b, rfl, rfl, by rw [hdefinitions, ← hmap]⟩
  · cases hmoves with
    | failed offset cause =>
      right
      rw [hboth]
      exact ⟨offset, cause, rfl, rfl⟩

theorem Source.lastLine_append_line (u v : Bytes) :
    Source.lastLine (u ++ 0x0A :: v) = Source.lastLine v := by
  rw [Source.lastLine, Source.lastLine, List.reverse_append, List.reverse_cons, List.append_assoc]
  congr 1
  induction v.reverse with
  | nil => rfl
  | cons b s ih =>
    rw [List.cons_append, List.takeWhile_cons, List.takeWhile_cons, ih]

theorem Source.positionAfter_append_line (u v : Bytes) :
    Source.positionAfter (u ++ 0x0A :: v) =
      ⟨(Source.positionAfter v).line + 1 + u.count 0x0A, (Source.positionAfter v).column⟩ := by
  simp only [Source.positionAfter, Source.lastLine_append_line, List.count_append,
    List.count_cons_self, Position.mk.injEq, and_true]
  omega

/-- The place in a text that stands behind `first` and a line feed. -/
def Place.behind (first : Bytes) (p : Place) : Place :=
  ⟨p.uri, p.offset + (first.length + 1), p.line + 1 + first.count 0x0A, p.column⟩

theorem Place.ofOffset_append_line (name first second : Bytes) (offset : Nat) :
    Place.ofOffset ⟨name, first ++ 0x0A :: second⟩ (offset + (first.length + 1) : Nat) =
      (Place.ofOffset ⟨name, second⟩ offset).behind first := by
  have htake : (first ++ 0x0A :: second).take (offset + (first.length + 1)) =
      first ++ 0x0A :: second.take offset := by
    rw [List.take_append, List.take_of_length_le (by omega)]
    congr 1
    rw [show offset + (first.length + 1) - first.length = offset + 1 by omega,
      List.take_succ_cons]
  simp only [Place.ofOffset, Source.position, Int.toNat_natCast, htake,
    Source.positionAfter_append_line, Place.behind]
  simp only [Int.natCast_add, Int.natCast_one]

/-- A text that parses can stand in front of any text: the second one is read as it is read alone,
behind the definitions of the first, or it fails as it fails alone, further behind. -/
theorem Source.parse_append_line {name : Bytes} (h : (Source.mk name first).parse = .ok doc)
    (hends : doc.EndsBefore second) :
    (∀ a, (Source.mk name second).parse = .ok a →
      ∃ b, (Source.mk name (first ++ 0x0A :: second)).parse = .ok b ∧
        b.definitions = doc.definitions ++ (a.map (Span.shift (first.length + 1))).definitions) ∧
    ∀ f, (Source.mk name second).parse = .error f →
      (Source.mk name (first ++ 0x0A :: second)).parse =
        .error ⟨f.place.behind first, f.code, f.message, f.causes⟩ := by
  rcases Document.parse_behind (Source.parse_eq_ok_iff.mp h) hends with
    ⟨a, b, ha, hb, hdefinitions⟩ | ⟨offset, cause, hsecond, hboth⟩
  · constructor
    · intro a' ha'
      rw [Source.parse, ha] at ha'
      obtain rfl := Except.ok.inj ha'
      exact ⟨b, by rw [Source.parse, hb], hdefinitions⟩
    · intro f hf
      rw [Source.parse, ha] at hf
      simp at hf
  · constructor
    · intro a ha
      rw [Source.parse, hsecond] at ha
      simp at ha
    · intro f hf
      rw [Source.parse, hsecond] at hf
      obtain rfl := Except.error.inj hf
      rw [Source.parse, hboth]
      simp only [Fault.ofSyntaxError, Fault.new, Place.ofOffset_append_line]

/-- A union, and behind it a further definition or a brace that nothing opens. -/
theorem Source.parse_append_line_sample :
    ∃ doc, (Source.mk (bytes "sample") (bytes "union A = B,\n")).parse = .ok doc ∧
      doc.EndsBefore (bytes " scalar C") ∧ doc.EndsBefore (bytes " \x7d") ∧
      (∃ a b, (Source.mk (bytes "sample") (bytes " scalar C")).parse = .ok a ∧
        (Source.mk (bytes "sample") (bytes "union A = B,\n\n scalar C")).parse = .ok b ∧
        b.definitions = doc.definitions ++ (a.map (Span.shift 14)).definitions) ∧
      ∃ f, (Source.mk (bytes "sample") (bytes " \x7d")).parse = .error f ∧
        (Source.mk (bytes "sample") (bytes "union A = B,\n\n \x7d")).parse =
          .error ⟨f.place.behind (bytes "union A = B,\n"), f.code, f.message, f.causes⟩ := by
  obtain ⟨doc, h⟩ : ∃ doc,
      (Source.mk (bytes "sample") (bytes "union A = B,\n")).parse = .ok doc := ⟨_, rfl⟩
  obtain ⟨a, ha⟩ : ∃ a, (Source.mk (bytes "sample") (bytes " scalar C")).parse = .ok a := ⟨_, rfl⟩
  obtain ⟨f, hf⟩ : ∃ f, (Source.mk (bytes "sample") (bytes " \x7d")).parse = .error f := ⟨_, rfl⟩
  have hscalar : doc.EndsBefore (bytes " scalar C") := .inr (by decide)
  have hbrace : doc.EndsBefore (bytes " \x7d") := .inr (by decide)
  obtain ⟨b, hb, hdefinitions⟩ := (Source.parse_append_line h hscalar).1 a ha
  exact ⟨doc, h, hscalar, hbrace, ⟨a, b, ha, hb, hdefinitions⟩, f, hf,
    (Source.parse_append_line h hbrace).2 f hf⟩

end SchemaDoc
