import SchemaDoc.Proofs.Layout.Placement

/-! # Layouts

A layout is a sequence of tokens with gaps before, between and behind them; a gap
is made of trivia alone and may be empty. When the gaps keep apart the tokens
that would otherwise run together, the text of a layout is read as exactly its
tokens. Conversely, a text that is read to its end is the text of a layout.
-/

namespace SchemaDoc.Grammar

variable {c d : Cursor} {t u : Token} {g r : Bytes}

/-- A gap, and then tokens with a gap behind each. -/
structure Layout where
  lead : Bytes
  items : List (Token × Bytes)
  lead_gap : Gap lead
  gaps : ∀ item ∈ items, Gap item.2

namespace Layout

def itemsText (items : List (Token × Bytes)) : Bytes :=
  items.flatMap fun item => item.1.text ++ item.2

def text (l : Layout) : Bytes := l.lead ++ itemsText l.items

def tokens (l : Layout) : List Token := l.items.map Prod.fst

/-- The tokens with their offsets, when the first one starts at `o`. -/
def placedFrom : (o : Nat) → List (Token × Bytes) → List Placed
  | _, [] => []
  | o, (t, g) :: items => ⟨o, t⟩ :: placedFrom (o + t.text.length + g.length) items

/-- The tokens with their offsets in the text of the layout. -/
def placed (l : Layout) : List Placed := placedFrom l.lead.length l.items

@[simp] theorem itemsText_cons (t : Token) (g : Bytes) (items : List (Token × Bytes)) :
    itemsText ((t, g) :: items) = t.text ++ (g ++ itemsText items) := by
  simp [itemsText]

theorem map_token_placedFrom (o : Nat) (items : List (Token × Bytes)) :
    (placedFrom o items).map Placed.token = items.map Prod.fst := by
  induction items generalizing o with
  | nil => rfl
  | cons item items ih => simp [placedFrom, ih]

theorem map_token_placed (l : Layout) : l.placed.map Placed.token = l.tokens :=
  map_token_placedFrom l.lead.length l.items

end Layout

namespace Token

def isComment : Token → Bool
  | comment _ => true
  | _ => false

theorem trimmed_eq_text {t : Token} (h : t.isComment = false) : t.trimmed = t.text := by
  cases t with
  | comment text => simp [isComment] at h
  | _ => rfl

/-- Whether the first character of the token can stand in a word. -/
def startsWord (t : Token) : Bool := t.text.head?.any isNameContinue

/-- Whether the last character of the token can stand in a word. -/
def endsWord (t : Token) : Bool := t.text.getLast?.any isNameContinue

end Token

/-- A text whose first character ends a line. -/
def breaksLine (g : Bytes) : Bool := g.head?.any isLineEnd

/-- No token runs into the next: between two characters of words there is a gap, and a comment
is ended by a line end or by the end of the text. -/
def Layout.separated : List (Token × Bytes) → Prop
  | [] => True
  | [(t, g)] => t.isComment → g = [] ∨ breaksLine g
  | (t, g) :: (u, h) :: items =>
    (t.endsWord → u.startsWord → g ≠ []) ∧ (t.isComment → breaksLine g) ∧
      separated ((u, h) :: items)

instance instDecidableSeparated : (items : List (Token × Bytes)) → Decidable (Layout.separated items)
  | [] => .isTrue trivial
  | [(t, g)] => inferInstanceAs (Decidable (t.isComment = true → g = [] ∨ breaksLine g = true))
  | (t, g) :: (u, h) :: items =>
    have := instDecidableSeparated ((u, h) :: items)
    inferInstanceAs (Decidable ((t.endsWord = true → u.startsWord = true → g ≠ []) ∧
      (t.isComment = true → breaksLine g = true) ∧ Layout.separated ((u, h) :: items)))

def Layout.Separated (l : Layout) : Prop := Layout.separated l.items

instance (l : Layout) : Decidable l.Separated := inferInstanceAs (Decidable (Layout.separated _))

private theorem stops_gap_append {p : UInt8 → Bool} (hg : Gap g) (hp : ∀ b, p b = true → IsPlain b)
    (hr : g = [] → Stops p r) : Stops p (g ++ r) := by
  cases g with
  | nil => exact hr rfl
  | cons b g =>
    cases hb : p b with
    | false => exact hb
    | true => exact absurd (hg.not_ascii_cons (hp b hb).1) (by simp [(hp b hb).2])

private theorem stops_of_head {p : UInt8 → Bool} (h : t.Proper) (hp : t.text.head?.any p = false)
    (r : Bytes) : Stops p (t.text ++ r) := by
  obtain ⟨b, s, ht, -⟩ := h.exists_first
  rw [ht] at hp ⊢
  simpa using hp

private theorem endsWord_of_last {s : Bytes} {b : UInt8} (ht : t.text = s ++ [b])
    (hb : isNameContinue b = true) : t.endsWord = true := by
  simp [Token.endsWord, ht, hb]

/-- A proper token is whole in front of a text that does not go on with it. -/
theorem Token.Proper.whole (h : t.Proper) (hword : t.endsWord = true → Stops isNameContinue r)
    (hpoint : Stops (· == 0x2E) r) (hline : t.isComment = true → Stops (fun b => !isLineEnd b) r) :
    t.Whole r := by
  cases t with
  | mark text => exact h
  | word text =>
    obtain ⟨s, b, hs, hb⟩ := exists_last_of_isIdentifier h
    exact ⟨h, hword (endsWord_of_last hs hb)⟩
  | number literal =>
    obtain ⟨s, b, hs, hb⟩ := exists_last_of_isNumber h
    have hstop := hword (endsWord_of_last hs (by simp [isNameContinue, hb]))
    apply Lexeme.number?_append h
    cases r with
    | nil => trivial
    | cons x r =>
      rw [stops_cons] at hstop hpoint ⊢
      rw [hstop, hpoint, Bool.or_false]
  | string text => exact h
  | comment text => exact ⟨h, hline rfl⟩

namespace Layout

variable {items : List (Token × Bytes)}

/-- In a layout that keeps its tokens apart the first token stands whole. -/
theorem whole_of_separated (h : separated ((t, g) :: items)) (hg : Gap g) (ht : t.Proper)
    (hitems : ∀ item ∈ items, item.1.Proper) : t.Whole (g ++ itemsText items) := by
  have hplain (b : UInt8) (hb : (b == 0x2E) = true) : IsPlain b := by
    rw [eq_of_beq hb]
    decide
  cases items with
  | nil =>
    refine ht.whole (fun _ => stops_gap_append hg (fun _ => Token.isPlain_of_isNameContinue)
      fun _ => trivial) (stops_gap_append hg hplain fun _ => trivial) fun hc => ?_
    rcases h hc with rfl | hb
    · trivial
    · cases g with
      | nil => trivial
      | cons b g => simpa [breaksLine] using hb
  | cons item items =>
    obtain ⟨u, gu⟩ := item
    obtain ⟨hword, hcomment, -⟩ := h
    have hu : u.Proper := hitems (u, gu) (by simp)
    rw [itemsText_cons]
    refine ht.whole (fun hends => ?_) ?_ fun hc => ?_
    · refine stops_gap_append hg (fun _ => Token.isPlain_of_isNameContinue) fun hnil => ?_
      apply stops_of_head hu
      exact Bool.eq_false_iff.mpr fun hstarts => hword hends hstarts hnil
    · refine stops_gap_append hg hplain fun _ => stops_of_head hu ?_ _
      obtain ⟨b, s, hs, -, hb⟩ := hu.exists_first
      simpa [hs] using hb
    · have hb := hcomment hc
      cases g with
      | nil => simp [breaksLine] at hb
      | cons b g => simpa [breaksLine] using hb

/-- The tokens of a text that keeps them apart are read from it, one after the other. -/
theorem reading_items (items : List (Token × Bytes)) {lead : Bytes} (hlead : Gap lead)
    (hgaps : ∀ item ∈ items, Gap item.2) (hs : separated items)
    (hproper : ∀ item ∈ items, item.1.Proper) (o : Nat) :
    Reading ⟨o, lead ++ itemsText items⟩ (placedFrom (o + lead.length) items)
      ⟨o + lead.length + (itemsText items).length, []⟩ := by
  induction items generalizing lead o with
  | nil =>
    refine .nil ?_
    rw [show itemsText [] = [] from rfl, Cursor.skipTrivia_eq hlead not_startsTrivial_nil,
      Cursor.skipTrivia_of_not_startsTrivial not_startsTrivial_nil]
    rfl
  | cons item items ih =>
    obtain ⟨t, g⟩ := item
    obtain ⟨hg, hrest⟩ := List.forall_mem_cons.mp hgaps
    obtain ⟨ht, hproper⟩ := List.forall_mem_cons.mp hproper
    have hwhole := whole_of_separated hs hg ht hproper
    have hs' : separated items := by
      cases items with
      | nil => trivial
      | cons item items => exact hs.2.2
    have hskip : (Cursor.mk o (lead ++ itemsText ((t, g) :: items))).skipTrivia =
        ⟨o + lead.length, t.text ++ (g ++ itemsText items)⟩ := by
      rw [itemsText_cons]
      exact Cursor.skipTrivia_eq hlead (hwhole.not_startsTrivial _) o
    have hreads : t.Reads ⟨o, lead ++ itemsText ((t, g) :: items)⟩
        ⟨o + lead.length + t.text.length, g ++ itemsText items⟩ := by
      refine ⟨⟨?_, ?_⟩, hwhole⟩ <;> rw [hskip]
    have hcons := Reading.cons hreads (ih hg hrest hs' hproper (o + lead.length + t.text.length))
    rw [hskip] at hcons
    have hlength : o + lead.length + (itemsText ((t, g) :: items)).length =
        o + lead.length + t.text.length + g.length + (itemsText items).length := by
      rw [itemsText_cons, List.length_append, List.length_append]
      omega
    rw [hlength]
    exact hcons

theorem reading (l : Layout) (hs : l.Separated) (hproper : ∀ t ∈ l.tokens, t.Proper) :
    Reading (.ofBody l.text) l.placed ⟨l.text.length, []⟩ := by
  have h := reading_items l.items l.lead_gap l.gaps hs
    (fun item hitem => hproper item.1 (List.mem_map_of_mem hitem)) 0
  rw [Nat.zero_add, ← List.length_append] at h
  exact h

end Layout

/-- A text that is read to its end is cut into the tokens and gaps of a layout. -/
theorem Reading.exists_layout {qs : List Placed} (h : Reading c qs d)
    (hd : d.skipTrivia.rest = []) :
    ∃ lead items, Gap lead ∧ (∀ item ∈ items, Gap item.2) ∧
      c.rest = lead ++ Layout.itemsText items ∧
      qs = Layout.placedFrom (c.offset + lead.length) items := by
  induction h with
  | @nil c d h =>
    obtain ⟨gap, hgap, hrest, -⟩ := c.exists_gap_skipTrivia
    rw [h, hd] at hrest
    exact ⟨gap, [], hgap, by simp, hrest, rfl⟩
  | @cons t c m d qs ht _ ih =>
    obtain ⟨lead, items, hlead, hgaps, hrest, rfl⟩ := ih hd
    obtain ⟨gap, hgap, hskip, hoffset⟩ := c.exists_gap_skipTrivia
    refine ⟨gap, (t, lead) :: items, hgap, ?_, ?_, ?_⟩
    · exact List.forall_mem_cons.mpr ⟨hlead, hgaps⟩
    · rw [Layout.itemsText_cons, ← hrest, ← ht.1.1]
      exact hskip
    · rw [Layout.placedFrom, ← hoffset, ← ht.1.2]

theorem Reading.exists_layout_of_body {body : Bytes} {qs : List Placed}
    (h : Reading (.ofBody body) qs d) (hd : d.skipTrivia.rest = []) :
    ∃ l : Layout, l.text = body ∧ l.placed = qs := by
  obtain ⟨lead, items, hlead, hgaps, hbody, hqs⟩ := h.exists_layout hd
  refine ⟨⟨lead, items, hlead, hgaps⟩, hbody.symm, ?_⟩
  rw [hqs]
  simp [Layout.placed, Cursor.ofBody]

end SchemaDoc.Grammar
