import SchemaDoc.Proofs.Completeness.Document
import SchemaDoc.Proofs.Composition.Moved
import SchemaDoc.Proofs.Layout.Extension

/-! # A definition on its own

The text of a definition, cut out of its document, parses to a document with this
definition alone, moved to the front. Nothing in front of it was needed to read
it, and nothing behind it either: a token that stands whole in front of a text
stands whole in front of its end, and no definition ends with a comment, which
alone could lose trivia at its end.
-/

namespace SchemaDoc

namespace Grammar

variable {c m d C M : Cursor} {t : Token} {p : Placed} {qs : List Placed} {v z : Bytes}

theorem Cursor.extend_inj (h : C.extend z = M.extend z) : C = M := by
  obtain ⟨o, s⟩ := C
  obtain ⟨o', s'⟩ := M
  simpa [extend] using h

/-- A token that stands whole at the start of a text is read there. -/
theorem Token.Whole.reads (h : t.Whole v) (o : Nat) :
    t.Reads ⟨o, t.text ++ v⟩ ⟨o + t.text.length, v⟩ ∧
      (Cursor.mk o (t.text ++ v)).skipTrivia.offset = o := by
  have hskip : (Cursor.mk o (t.text ++ v)).skipTrivia = ⟨o, t.text ++ v⟩ :=
    Cursor.skipTrivia_of_not_startsTrivial (h.not_startsTrivial v)
  rw [Token.Reads, Cursor.Takes, hskip]
  exact ⟨⟨⟨rfl, rfl⟩, h⟩, rfl⟩

theorem Token.Reads.cut (h : t.Reads c m) (hc : c.skipTrivia = C.extend z) (hm : m.rest = v ++ z) :
    t.Reads C ⟨m.offset, v⟩ ∧ C.skipTrivia.offset = c.skipTrivia.offset := by
  obtain ⟨⟨hrest, hoffset⟩, hwhole⟩ := h
  obtain ⟨o, s⟩ := C
  rw [hc, hm, Cursor.extend, ← List.append_assoc] at hrest
  obtain rfl : s = t.text ++ v := List.append_cancel_right hrest
  rw [hm] at hwhole
  rw [hc] at hoffset ⊢
  rw [hoffset]
  exact hwhole.of_append.reads o

/-- A reading in front of a text is a reading without this text. -/
theorem Reading.cut (h : Reading c qs m) (hc : c.skipTrivia = C.extend z)
    (hm : m.skipTrivia = M.extend z) : Reading C qs M := by
  induction h generalizing C with
  | nil h =>
    rw [h, hm] at hc
    rw [Cursor.extend_inj hc]
    exact .nil rfl
  | @cons t c e m qs ht h ih =>
    obtain ⟨w, hw, -⟩ := h.reaches
    obtain ⟨gap, hgap, hrest, hoffset⟩ := e.exists_gap_skipTrivia
    have he : e.skipTrivia = (Cursor.mk e.skipTrivia.offset (w ++ M.rest)).extend z := by
      rw [hm] at hw
      rw [Cursor.extend, List.append_assoc]
      exact congrArg (Cursor.mk _) hw
    rw [he, Cursor.extend, List.append_assoc, ← List.append_assoc, ← List.append_assoc] at hrest
    obtain ⟨hread, hstart⟩ := ht.cut hc hrest
    rw [← hstart]
    refine .cons hread ((ih he hm).congr_left ?_)
    rw [List.append_assoc, Cursor.skipTrivia_gap_append hgap, ← hoffset]

/-- The text from the first token of a reading to the end of its last token is read as these tokens
also when nothing follows. -/
theorem Reading.excerpt (h : Reading c (qs ++ [p]) d) :
    ∃ u r, c.skipTrivia.rest = u ++ p.token.text ++ r ∧ p.token.Whole r ∧
      (Cursor.mk (c.skipTrivia.offset + (u ++ p.token.text).length) r).skipTrivia = d.skipTrivia ∧
      Reading ⟨c.skipTrivia.offset, u ++ p.token.text⟩ (qs ++ [p])
        ⟨c.skipTrivia.offset + (u ++ p.token.text).length, []⟩ := by
  obtain ⟨m, hqs, hp⟩ := Reading.append_iff.mp h
  cases hp with
  | @cons t _ e _ _ ht he =>
    have hskip : e.skipTrivia = d.skipTrivia := by
      cases he with
      | nil h => exact h
    obtain ⟨u, hu, hoffset⟩ := hqs.reaches
    have hrest : c.skipTrivia.rest = u ++ t.text ++ e.rest := by
      rw [hu, ht.1.1, List.append_assoc]
    have hend : e.offset = c.skipTrivia.offset + (u ++ t.text).length := by
      rw [ht.1.2, hoffset, List.length_append, Nat.add_assoc]
    have hc : c.skipTrivia = (Cursor.mk c.skipTrivia.offset (u ++ t.text)).extend e.rest := by
      rw [Cursor.extend, ← hrest]
    have hm : m.skipTrivia = (Cursor.mk m.skipTrivia.offset t.text).extend e.rest := by
      rw [Cursor.extend, ← ht.1.1]
    obtain ⟨hlast, hstart⟩ := ht.cut hm (v := []) rfl
    have hreading := (hqs.cut hc hm).append hlast.reading
    rw [hstart, hend] at hreading
    refine ⟨u, e.rest, hrest, ht.2, ?_, hreading⟩
    rw [← hend]
    exact hskip

end Grammar

open Grammar

variable {L : Type} {k : Constancy} {ps : List (Part L)} {ts : List Token}

/-- The last of the tokens is there and no comment. -/
def EndsBare (ts : List Token) : Prop := ∃ us t, ts = us ++ [t] ∧ t.isComment = false

theorem Spells.endsBare_append {qs : List (Part L)} (h : Spells (ps ++ qs) ts)
    (hqs : ∀ us, Spells qs us → EndsBare us) : EndsBare ts := by
  obtain ⟨us, vs, rfl, -, hvs⟩ := append_iff.mp h
  obtain ⟨ws, t, rfl, ht⟩ := hqs vs hvs
  exact ⟨us ++ ws, t, by simp, ht⟩

theorem Spells.endsBare_token {t : Token} (ht : t.isComment = false)
    (h : Spells [(.token t : Part L)] ts) : EndsBare ts := by
  cases h with
  | token h =>
    cases h
    exact ⟨[], t, rfl, ht⟩

theorem Spells.endsBare_node {n : Node L} (h : Spells [.node n] ts)
    (hn : ∀ us, n.Spells us → EndsBare us) : EndsBare ts := by
  cases h with
  | node hnode h =>
    cases h
    rw [List.append_nil]
    exact hn _ hnode

theorem Spells.endsBare_name {n : Name L} (h : Spells [.name n] ts) : EndsBare ts :=
  Spells.endsBare_node (n := .name n) h fun _ hn => Spells.endsBare_token rfl hn

theorem Spells.endsBare_block {α : Type} {ofMember : α → Node L} {es : List (Element L α)}
    (h : Spells (ps ++ Element.blockParts ofMember es) ts) : EndsBare ts := by
  rw [Element.blockParts, ← List.cons_append, ← List.append_assoc] at h
  exact h.endsBare_append fun _ => endsBare_token rfl

theorem Spells.endsBare_union {members : List (NamedType L)} (hne : members ≠ [])
    (h : Spells (NamedType.unionParts members) ts) : EndsBare ts := by
  fun_induction NamedType.unionParts members generalizing ts with
  | case1 => exact absurd rfl hne
  | case2 t =>
    exact Spells.endsBare_node (n := .type (.named t)) h fun _ ht => Spells.endsBare_name ht
  | case3 t us hus ih =>
    have h' : Spells ([.type (.named t), .mark "|"] ++ NamedType.unionParts us) ts := h
    exact h'.endsBare_append fun _ => ih (by simpa using hus)

private theorem ObjectType.endsBare {o : ObjectType L} (h : Spells o.parts ts) : EndsBare ts := by
  rw [ObjectType.parts, ← List.cons_append, ← List.cons_append, ← List.cons_append] at h
  exact h.endsBare_block

/-- No definition ends with a comment. -/
theorem Definition.endsBare {d : Definition L} (hd : d.Admissible) (h : Spells d.parts ts) :
    EndsBare ts := by
  have hblock {α : Type} {ofMember : α → Node L} {es : List (Element L α)} {p q : Part L}
      (h : Spells ([p, q] ++ Element.blockParts ofMember es) ts) : EndsBare ts := h.endsBare_block
  cases d with
  | object o => exact ObjectType.endsBare h
  | interface loc name fields => exact hblock h
  | union loc name members =>
    have h' : Spells ([.word "union", .name name, .mark "="] ++ NamedType.unionParts members) ts :=
      h
    exact h'.endsBare_append fun _ => Spells.endsBare_union hd.2
  | scalar loc name =>
    have h' : Spells ([.word "scalar"] ++ [.name name]) ts := h
    exact h'.endsBare_append fun _ => Spells.endsBare_name
  | enum loc name members => exact hblock h
  | input loc name fields => exact hblock h
  | extension loc o =>
    have h' : Spells ([.word "extend"] ++ [.node (.definition (.object o))]) ts := h
    exact h'.endsBare_append fun _ ho => ho.endsBare_node fun _ => ObjectType.endsBare

namespace Grammar

variable {c d : Cursor}

/-- A node without a comment at its end is written in its text alone as it is written in a longer
one, and its span is all of this text. -/
theorem Written.excerpt {n : Node Span} (h : Written k id [.node n] c d) (hn : ¬ n.IsDocument)
    (hlast : ∀ us, n.Spells us → EndsBare us) :
    ∃ w r, c.skipTrivia.rest = w ++ r ∧
      n.loc = ⟨c.skipTrivia.offset, c.skipTrivia.offset + w.length⟩ ∧
      Written k id [.node n] ⟨c.skipTrivia.offset, w⟩ ⟨c.skipTrivia.offset + w.length, []⟩ := by
  obtain ⟨qs, hplaced, hreading⟩ := h.exists_placement (List.forall_mem_singleton.mpr hn)
  obtain ⟨us, t, hmap, ht⟩ := hplaced.spells.endsBare_node hlast
  obtain ⟨ps, rs, rfl, -, hrs⟩ := List.map_eq_append_iff.mp hmap
  obtain ⟨p, rfl, rfl⟩ := List.map_eq_singleton_iff.mp hrs
  obtain ⟨u, r, hrest, hwhole, hskip, hcut⟩ := hreading.excerpt
  refine ⟨u ++ p.token.text, r, hrest, ?_, hplaced.written h.admissible hcut⟩
  have htrim : trimRight (u ++ p.token.text) = u ++ p.token.text := by
    obtain ⟨b, s, htext, hb⟩ := hwhole.exists_first
    rw [htext, trimRight_append_cons hb.1 hb.2, ← htext, hwhole.trimRight_text,
      Token.trimmed_eq_text ht]
  have hloc : n.loc = c.spanTo d := (Written.single_iff.mp h).2.1
  rw [hloc, ← Cursor.spanTo_congr_right hskip, Cursor.spanTo_eq hrest rfl, htrim]

/-- A comment is written in its text alone as a comment without the trivia at its end. -/
theorem Written.excerpt_comment {x : Comment Span} (h : Written k id [.node (.comment x)] c d) :
    ∃ r, c.skipTrivia.rest = trimRight x.text ++ r ∧
      x.loc = ⟨c.skipTrivia.offset, c.skipTrivia.offset + (trimRight x.text).length⟩ ∧
      Written k id [.node (.comment ⟨x.loc, trimRight x.text⟩)]
        ⟨c.skipTrivia.offset, trimRight x.text⟩
        ⟨c.skipTrivia.offset + (trimRight x.text).length, []⟩ := by
  obtain ⟨hx, hloc, hparts⟩ := Written.single_iff.mp h
  obtain ⟨m, hread, hnil⟩ := Written.token_iff.mp hparts
  obtain ⟨htrim, g, -, hg⟩ := trimRight_spec x.text
  have hrest : c.skipTrivia.rest = trimRight x.text ++ (g ++ m.rest) := by
    rw [← List.append_assoc, ← hg]
    exact hread.1.1
  have hspan : x.loc = ⟨c.skipTrivia.offset, c.skipTrivia.offset + (trimRight x.text).length⟩ := by
    rw [show x.loc = c.spanTo d from hloc, ← Cursor.spanTo_congr_right (Written.nil_iff.mp hnil),
      hread.spanTo_eq]
    rfl
  have hwhole : (Token.comment (trimRight x.text)).Whole [] := ⟨hx.trimRight, stops_nil⟩
  obtain ⟨hread', hstart⟩ := hwhole.reads c.skipTrivia.offset
  simp only [Token.text, List.append_nil] at hread' hstart
  refine ⟨g ++ m.rest, hrest, hspan, Written.single_iff.mpr ⟨hx.trimRight, ?_, ?_⟩⟩
  · rw [hread'.spanTo_eq, hstart, Placed.stop, Token.trimmed, trimRight_eq_self htrim]
    exact hspan
  · exact .token hread' (.nil rfl)

end Grammar

variable {body : Bytes} {doc : Document Span} {e : Element Span (Definition Span)}

theorem Span.eq_of_shift_eq {s : Span} {o n : Nat} (h : s.shift o = ⟨o, o + n⟩) : s = ⟨0, n⟩ := by
  obtain ⟨start, stop⟩ := s
  simp only [Span.shift, Span.mk.injEq] at h ⊢
  omega

theorem Span.text_eq {o : Nat} {w r : Bytes} (h : body.drop o = w ++ r) :
    (Span.mk o (o + w.length)).text body = w := by
  simp [Span.text, h]

/-- A text that is one entry of a document from its first byte to its last parses to a document
with this entry alone. -/
theorem Document.parse_of_written {o : Nat} {text : Bytes}
    (h : Written .constant id [.node (e.node .definition)] ⟨o, text⟩ ⟨o + text.length, []⟩)
    (hloc : (e.node .definition).loc = ⟨o, o + text.length⟩) :
    ∃ e', Document.parse text = .ok ⟨⟨0, text.length⟩, [e']⟩ ∧
      e'.map (Span.shift o) (Definition.map (Span.shift o)) = e := by
  have hwritten : Written .constant id
      [.node (.document ⟨⟨o, o + text.length⟩, [e]⟩)] ⟨o, text⟩ ⟨o + text.length, []⟩ :=
    Written.single_iff.mpr ⟨trivial, hloc ▸ (Written.single_iff.mp h).2.1, h⟩
  obtain ⟨a, ha, hid⟩ := document_yields hwritten rfl
  rw [Document.map, Element.map_id_list Definition.map_id] at hid
  have hmoves := document_moves (n := o) (.ofBody text)
  rw [show (Cursor.ofBody text).move o = ⟨o, text⟩ by simp [Cursor.ofBody, Cursor.move], ha]
    at hmoves
  generalize (Cursor.mk (o + text.length) []).skipTrivia = m at hmoves
  generalize hp : document (.ofBody text) = p at hmoves
  cases hmoves with
  | @matched doc _ m hmap =>
    obtain ⟨loc, definitions⟩ := doc
    obtain ⟨hspan, hdefinitions⟩ := Document.mk.inj (hmap.trans hid)
    obtain ⟨e', rfl, he'⟩ := List.map_eq_singleton_iff.mp hdefinitions
    obtain rfl : loc = ⟨0, text.length⟩ := Span.eq_of_shift_eq hspan
    exact ⟨e', Document.parse_eq_ok_iff.mpr ⟨_, hp⟩, he'⟩

/-- Every entry of a parsed document is written somewhere in the text. -/
theorem Document.exists_written_of_mem (h : Document.parse body = .ok doc)
    (he : e ∈ doc.definitions) :
    ∃ c d : Cursor, Written .constant id [.node (e.node .definition)] c d ∧
      c.skipTrivia.rest = body.drop c.skipTrivia.offset := by
  obtain ⟨d, hwritten, -, -⟩ := Document.written_of_parse h
  obtain ⟨us, vs, hsplit⟩ := List.append_of_mem he
  rw [Node.parts, hsplit, Element.parts, List.map_append, List.map_cons] at hwritten
  obtain ⟨c, hus, hrest⟩ := Written.append_iff.mp hwritten
  obtain ⟨m, hm, -⟩ := Written.cons_iff.mp hrest
  have hreaches := (Cursor.reaches_skipTrivia _).trans hus.reaches
  exact ⟨c, m, hm, congrArg Cursor.rest hreaches.eq_atOffset.2⟩

/-- The text of an entry of a parsed document parses alone. A definition is found again as it was,
with every offset counted from its own start, and a comment without the trivia at its end. -/
theorem Source.parse_excerpt {s : Source} (h : s.parse = .ok doc) (name : Bytes) :
    (∀ d, .member d ∈ doc.definitions →
      ∃ d', (Source.mk name (d.loc.text s.body)).parse =
          .ok ⟨⟨0, (d.loc.text s.body).length⟩, [.member d']⟩ ∧
        d'.map (Span.shift d.loc.start) = d) ∧
    ∀ c, .comment c ∈ doc.definitions →
      (Source.mk name (c.loc.text s.body)).parse =
        .ok ⟨⟨0, (c.loc.text s.body).length⟩,
          [.comment ⟨⟨0, (c.loc.text s.body).length⟩, c.loc.text s.body⟩]⟩ ∧
      c.loc.text s.body = trimRight c.text := by
  have hparse := Source.parse_eq_ok_iff.mp h
  constructor
  · intro d hd
    obtain ⟨c, m, hwritten, hbody⟩ := Document.exists_written_of_mem hparse hd
    have hadmissible : d.Admissible := (Written.single_iff.mp hwritten).1
    obtain ⟨w, r, hrest, hloc, hcut⟩ := hwritten.excerpt id fun _ => Definition.endsBare hadmissible
    obtain ⟨e', he', hmap⟩ := Document.parse_of_written (e := .member d) hcut hloc
    have hspan : d.loc = ⟨c.skipTrivia.offset, c.skipTrivia.offset + w.length⟩ := hloc
    rw [hspan, Span.text_eq (hbody.symm.trans hrest)]
    cases e' with
    | comment x => simp [Element.map] at hmap
    | member d' =>
      exact ⟨d', Source.parse_eq_ok_iff.mpr he', Element.member.inj hmap⟩
  · intro x hx
    obtain ⟨c, m, hwritten, hbody⟩ := Document.exists_written_of_mem hparse hx
    obtain ⟨r, hrest, hspan, hcut⟩ := Written.excerpt_comment hwritten
    obtain ⟨e', he', hmap⟩ := Document.parse_of_written
      (e := .comment ⟨x.loc, trimRight x.text⟩) hcut hspan
    rw [hspan, Span.text_eq (hbody.symm.trans hrest)]
    refine ⟨Source.parse_eq_ok_iff.mpr ?_, rfl⟩
    cases e' with
    | member d => simp [Element.map] at hmap
    | comment y =>
      obtain ⟨loc, text⟩ := y
      obtain ⟨hloc, rfl⟩ := Comment.mk.inj (Element.comment.inj hmap)
      obtain rfl : loc = ⟨0, _⟩ := Span.eq_of_shift_eq (hloc.trans hspan)
      exact he'

/-- A comment with trivia at its end, and a union behind it. -/
def excerptSource : Source := ⟨bytes "sample", bytes "#x ,\n\tunion A = B|C, "⟩

theorem excerptSource_excerpt :
    ∃ doc d c, excerptSource.parse = .ok doc ∧ doc.definitions = [.comment c, .member d] ∧
      (∃ d', (Source.mk [] (bytes "union A = B|C")).parse = .ok ⟨⟨0, 13⟩, [.member d']⟩ ∧
        d'.map (Span.shift 6) = d) ∧
      (Source.mk [] (bytes "#x")).parse = .ok ⟨⟨0, 2⟩, [.comment ⟨⟨0, 2⟩, bytes "#x"⟩]⟩ ∧
      bytes "#x" = trimRight c.text := by
  obtain ⟨doc, d, c, h, hentries, hd, hc⟩ : ∃ doc d c, excerptSource.parse = .ok doc ∧
      doc.definitions = [.comment c, .member d] ∧ d.loc = ⟨6, 19⟩ ∧ c.loc = ⟨0, 2⟩ :=
    ⟨_, _, _, rfl, rfl, rfl, rfl⟩
  have hunion := (Source.parse_excerpt h []).1 d (by simp [hentries])
  have hcomment := (Source.parse_excerpt h []).2 c (by simp [hentries])
  have hunionText : Span.text ⟨6, 19⟩ excerptSource.body = bytes "union A = B|C" := by decide
  have hcommentText : Span.text ⟨0, 2⟩ excerptSource.body = bytes "#x" := by decide
  rw [hd, hunionText] at hunion
  rw [hc, hcommentText] at hcomment
  exact ⟨doc, d, c, h, hentries, hunion, hcomment⟩

end SchemaDoc
