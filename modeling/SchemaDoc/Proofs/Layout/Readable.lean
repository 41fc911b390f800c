import SchemaDoc.Proofs.Layout.Basic
import SchemaDoc.Proofs.Text.Utf8

/-! # The texts in a valid source

Tokens and gaps start with a byte that is not inside of a UTF-8 sequence, so a
valid text is cut into valid texts where its tokens begin and end. The names,
comments and strings of a tree are taken from its tokens and are valid as well.
-/

namespace SchemaDoc

open Bytes (IsUtf8)
open Character (isTail)
open Grammar

variable {L : Type}

theorem Grammar.Gap.isUtf8 {g : Bytes} (h : Gap g) : IsUtf8 g := by
  obtain ⟨codes, hcodes, rfl⟩ := h
  induction codes with
  | nil => exact .nil
  | cons code codes ih =>
    obtain ⟨hcode, hcodes⟩ := List.forall_mem_cons.mp hcodes
    exact .cons (isScalar_of_isTrivia hcode) (ih hcodes)

namespace Grammar.Layout

variable {items : List (Token × Bytes)}

theorem stops_append {p : UInt8 → Bool} {g r : Bytes} (hg : Stops p g) (hr : Stops p r) :
    Stops p (g ++ r) := by
  cases g with
  | nil => exact hr
  | cons b g => exact hg

theorem stops_itemsText (h : ∀ item ∈ items, item.1.Proper) : Stops isTail (itemsText items) := by
  cases items with
  | nil => trivial
  | cons item items =>
    obtain ⟨b, s, htext, hb, -⟩ := (h item List.mem_cons_self).exists_first
    have htail : isTail b = false := by
      rw [Bool.eq_false_iff, Ne, Character.isTail_iff]
      have := hb.1
      omega
    rw [itemsText, List.flatMap_cons, htext]
    exact htail

theorem isUtf8_of_itemsText (h : IsUtf8 (itemsText items)) (hgaps : ∀ item ∈ items, Gap item.2)
    (hproper : ∀ item ∈ items, item.1.Proper) : ∀ item ∈ items, IsUtf8 item.1.text := by
  induction items with
  | nil => nofun
  | cons item items ih =>
    obtain ⟨hgap, hgaps⟩ := List.forall_mem_cons.mp hgaps
    obtain ⟨-, hproper⟩ := List.forall_mem_cons.mp hproper
    have hstops := stops_itemsText hproper
    rw [itemsText_cons] at h
    obtain ⟨htoken, hrest⟩ := h.of_append (stops_append hgap.isUtf8.stops hstops)
    exact List.forall_mem_cons.mpr ⟨htoken, ih (hrest.of_append hstops).2 hgaps hproper⟩

theorem isUtf8_of_text {l : Layout} (h : IsUtf8 l.text) (hproper : ∀ t ∈ l.tokens, t.Proper) :
    ∀ t ∈ l.tokens, IsUtf8 t.text := by
  have hitems : ∀ item ∈ l.items, item.1.Proper :=
    fun item hitem => hproper item.1 (List.mem_map_of_mem hitem)
  have htexts := isUtf8_of_itemsText (h.of_append (stops_itemsText hitems)).2 l.gaps hitems
  intro t ht
  obtain ⟨item, hitem, rfl⟩ := List.mem_map.mp ht
  exact htexts item hitem

end Grammar.Layout

/-- Taking the escapes out of a valid text leaves a valid text. -/
theorem Grammar.isUtf8_of_escape {s t : Bytes} (h : IsUtf8 (t ++ escape s)) : IsUtf8 (t ++ s) := by
  -- The text between two escaped characters is collected in `t` until the next one is met.
  induction s generalizing t with
  | nil => exact h
  | cons b s ih =>
    rw [escape] at h
    split at h
    · next hb =>
      have hascii : b.toNat < 0x80 := by rcases hb with rfl | rfl <;> decide
      obtain ⟨ht, hrest⟩ := h.of_append_cons (by decide)
      have hs : IsUtf8 s := ih (t := []) (IsUtf8.of_append_cons (s := []) hrest hascii).2
      exact ht.append (.cons_ascii hascii hs)
    · rw [List.append_cons] at h ⊢
      exact ih h

theorem Grammar.isUtf8_of_quote {s : Bytes} (h : IsUtf8 (quote s)) : IsUtf8 s := by
  have hinner : IsUtf8 (escape s ++ [0x22]) := (IsUtf8.of_append_cons (s := []) h (by decide)).2
  exact isUtf8_of_escape (t := []) (hinner.of_append_cons (by decide)).1

/-- The text that the node holds itself is valid. -/
def Node.Readable : Node L → Prop
  | .comment c => IsUtf8 c.text
  | .name n => IsUtf8 n.text
  | .value (.string _ text) => IsUtf8 text
  | _ => True

private theorem Spells.isUtf8_of_token {t : Token} {ps : List (Part L)} {ts : List Token}
    (h : Spells (.token t :: ps) ts) (hts : ∀ t ∈ ts, IsUtf8 t.text) : IsUtf8 t.text := by
  cases h
  exact hts t List.mem_cons_self

/-- The texts of a tree that is spelled by valid tokens are valid. -/
theorem Spells.readable {ps : List (Part L)} {ts : List Token} (h : Spells ps ts)
    (hts : ∀ t ∈ ts, IsUtf8 t.text) : ∀ n ∈ ps.flatMap Part.walk, n.Readable := by
  induction h with
  | nil => nofun
  | token _ ih => exact ih (List.forall_mem_cons.mp hts).2
  | omitted _ ih => exact ih hts
  | kept _ ih => exact ih (List.forall_mem_cons.mp hts).2
  | @node n ps us ts hn _ ihn ih =>
    obtain ⟨hus, hts⟩ := List.forall_mem_append.mp hts
    have hself : n.Readable := by
      cases n with
      | comment c => exact hn.isUtf8_of_token hus
      | name m => exact hn.isUtf8_of_token hus
      | value v =>
        cases v with
        | string loc text => exact isUtf8_of_quote (hn.isUtf8_of_token hus)
        | _ => trivial
      | _ => trivial
    rw [List.flatMap_cons, Part.walk, Node.walk_eq_parts]
    exact List.forall_mem_append.mpr
      ⟨List.forall_mem_append.mpr ⟨ihn hus, List.forall_mem_singleton.mpr hself⟩, ih hts⟩

end SchemaDoc
