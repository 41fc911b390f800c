import SchemaDoc.Proofs.Completeness.Definitions
import SchemaDoc.Proofs.Soundness.Document

/-! # Every well-formed document has texts that parse to it

Any layout of the tokens of a well-formed document parses to this document, as
long as the gaps keep apart what would run together. How the gaps are filled has
no influence on the tree.
-/

namespace SchemaDoc

open Grammar

variable {L : Type} {g : Span → L}

theorem Grammar.document_yields {c d : Cursor} {t : Document L}
    (h : Written .constant g [.node (.document t)] c d) (hd : d.skipTrivia.rest = []) :
    Yields document (Document.map g) t c d := by
  obtain ⟨-, hloc, hparts⟩ := Written.single_iff.mp h
  have havoids (p : UInt8 → Bool) : d.Avoids p := by
    rw [Cursor.Avoids, hd]
    exact stops_nil
  have hlast : ∀ b, t.definitions.getLast? = some (.member b) → definitionFollow b d := by
    intro b _
    cases b with
    | union loc n members => exact havoids _
    | _ => trivial
  obtain ⟨xs, m, hxs, hmap, hreach, hskip⟩ := (definition_listed _).many_yields definition_needs
    (hparts.congr_left (e := c.skipTrivia) (by simp)) (havoids _) hlast
  have hend : m.skipTrivia.isEnd = true := by
    rw [hskip, Cursor.isEnd, hd]
    rfl
  refine .positioned (w := fun loc => ⟨loc, xs⟩) ?_ hskip hreach ?_
  · simp only [hxs, Outcome.andThen, hend, if_true]
  · rw [Document.map, hmap, ← hloc]
    rfl

/-- Every layout of the tokens of a well-formed document parses to the document. -/
theorem Source.parse_of_layout {t : Document Unit} (ht : t.WellFormed) (l : Layout)
    (hs : t.Spells l.tokens) (hl : l.Separated) (name : Bytes) :
    ∃ doc, (Source.mk name l.text).parse = .ok doc ∧ doc.erase = t := by
  have hwalk : ∀ n ∈ (Node.document t).walk, n.Admissible .constant := ht
  rw [Node.walk_eq_parts] at hwalk
  have hinner := (List.forall_mem_append.mp hwalk).1
  have hparts := Node.parts_proper (k := .constant) (n := .document t) trivial
  have hreading := l.reading hl (SchemaDoc.Spells.proper hs hparts hinner)
  have hplaced := Placement.of_spells hs l.map_token_placed hparts hinner
  have hwritten : Written .constant (fun _ => ()) [.node (.document t)] (.ofBody l.text)
      ⟨l.text.length, []⟩ :=
    Written.single_iff.mpr ⟨trivial, rfl, hplaced.written hinner hreading⟩
  have hend : (Cursor.mk l.text.length []).skipTrivia.rest = [] := rfl
  obtain ⟨doc, hdoc, herase⟩ := document_yields hwritten hend
  exact ⟨doc, Source.parse_eq_ok_iff.mpr (Document.parse_eq_ok_iff.mpr ⟨_, hdoc⟩), herase⟩

/-- The tree of `type A implements { a(b: [Int!] = -1): B } #c`. -/
def sampleDocument : Document Unit :=
  let name (s : String) : Name Unit := ⟨(), bytes s⟩
  let named (s : String) : TypeRef Unit := .named ⟨(), name s⟩
  ⟨(), [.member (.object ⟨(), name "A", [], [.member ⟨(), name "a",
    some [.member ⟨(), name "b", .list () (.nonNull () (named "Int")),
      some (.number () ⟨bytes "-1", ⟨-1, 0⟩⟩)⟩], named "B"⟩]⟩), .comment ⟨(), bytes "#c"⟩]⟩

def sampleLayout : Layout where
  lead := bytes ","
  items := [(.word (bytes "type"), bytes " "), (.word (bytes "A"), bytes "\n"),
    (.word (bytes "implements"), []), (.mark (bytes "\x7b"), []), (.word (bytes "a"), []),
    (.mark (bytes "("), []), (.word (bytes "b"), bytes " "), (.mark (bytes ":"), []),
    (.mark (bytes "["), []), (.word (bytes "Int"), []), (.mark (bytes "!"), []),
    (.mark (bytes "]"), []), (.mark (bytes "="), bytes ", "), (.number (bytes "-1"), []),
    (.mark (bytes ")"), []), (.mark (bytes ":"), []), (.word (bytes "B"), []),
    (.mark (bytes "\x7d"), []), (.comment (bytes "#c"), [])]
  lead_gap := by decide
  gaps := by decide

theorem sampleDocument_spells : sampleDocument.Spells sampleLayout.tokens := by
  unfold Document.Spells Node.Spells
  -- Every node is replaced by its parts until only tokens are left.
  repeat first
    | exact .nil
    | refine .token ?_
    | refine .kept ?_
    | refine .of_parts ?_

theorem sampleDocument_parse :
    sampleDocument.WellFormed ∧ sampleDocument.Spells sampleLayout.tokens ∧
      sampleLayout.Separated ∧
      ∃ doc, (Source.mk (bytes "sample") sampleLayout.text).parse = .ok doc ∧
        doc.erase = sampleDocument :=
  ⟨by decide, sampleDocument_spells, by decide,
    Source.parse_of_layout (by decide) sampleLayout sampleDocument_spells (by decide) _⟩

end SchemaDoc
