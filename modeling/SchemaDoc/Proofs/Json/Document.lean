import SchemaDoc.Output
import SchemaDoc.Proofs.Json.Writing
import SchemaDoc.Proofs.Layout.Readable
import SchemaDoc.Proofs.Soundness.WellFormed
import SchemaDoc.Proofs.Tree.Shape

/-! # The JSON of a parsed document

The data of a document parsed from a valid text holds valid texts only, under
keys that are distinct in each map. Its JSON is therefore a text that is read
back as the data.
-/

namespace SchemaDoc

open Bytes (IsUtf8)
open Grammar

theorem Kind.isUtf8_label (k : Kind) : IsUtf8 k.label := by
  apply Bytes.isUtf8_of_ascii
  cases k <;> decide +kernel

theorem Kind.isUtf8_keys (k : Kind) : ∀ key ∈ k.keys, IsUtf8 key := by
  have hascii : ∀ key ∈ k.keys, ∀ b ∈ key, b.toNat < 0x80 := by
    cases k <;> decide +kernel
  exact fun key hkey => Bytes.isUtf8_of_ascii (hascii key hkey)

theorem Span.valid_tree (s : Span) : s.tree.Valid := by
  apply Data.Valid.map
  · change [bytes "end", bytes "start"].Nodup
    decide
  · simpa using ⟨Bytes.isUtf8_of_ascii (by decide +kernel),
      Bytes.isUtf8_of_ascii (by decide +kernel)⟩
  · simpa using ⟨.integer _, .integer _⟩

theorem valid_nodeTree {kind : Kind} {loc : Span} {parts : List (Bytes × Data)}
    (hparts : parts.map Prod.fst = kind.partKeys) (h : ∀ e ∈ parts, e.2.Valid) :
    (nodeTree kind loc parts).Valid := by
  have hkeys := Kind.keys_eq loc hparts
  refine .map (hkeys ▸ kind.nodup_keys) (fun e he => ?_) ?_
  · apply kind.isUtf8_keys
    rw [← hkeys]
    exact List.mem_map_of_mem he
  · simpa using ⟨.text kind.isUtf8_label, loc.valid_tree, fun key d => h (key, d)⟩

theorem Data.inherited_valid : Data.Inherited Data.Valid where
  null := .null
  boolean := .boolean
  number := .number
  list _ h := .list (List.forall_mem_map.mpr h)
  node _ _ _ := valid_nodeTree

theorem Node.Readable.isUtf8 {n : Node Span} {s : Bytes} (h : n.Readable) (hs : n.text? = some s) :
    IsUtf8 s := by
  unfold Node.text? at hs
  split at hs <;> cases hs <;> exact h

theorem Document.valid_tree (d : Document Span) (h : ∀ n ∈ d.walk, n.Readable) : d.tree.Valid :=
  (Node.document d).inherited_tree Data.inherited_valid fun n hn _ hs =>
    .text ((h n hn).isUtf8 hs)

variable {s : Source} {doc : Document Span} {text : Bytes}

/-- The texts in a document parsed from a valid text are valid. -/
theorem Source.readable_of_parse (h : s.parse = .ok doc) (hbody : IsUtf8 s.body) :
    ∀ n ∈ doc.walk, n.Readable := by
  have hparse := Source.parse_eq_ok_iff.mp h
  obtain ⟨l, d, hl, -, hspells⟩ := Document.exists_reading_of_parse hparse
  rw [← hl] at hbody
  have hproper := Document.proper_of_parse hparse hspells
  have hreadable := SchemaDoc.Spells.readable hspells (Layout.isUtf8_of_text hbody hproper)
  change ∀ n ∈ (Node.document doc).walk, n.Readable
  rw [Node.walk_eq_parts]
  exact List.forall_mem_append.mpr ⟨hreadable, List.forall_mem_singleton.mpr trivial⟩

theorem Document.exists_json_of_write (h : doc.write (bytes "json") = .ok text) :
    ∃ json, Json.write .indented 0 doc.tree = .ok json ∧ text = json ++ [0x0A] := by
  have hformat : OutputFormat.ofName (bytes "json") = .ok .json := rfl
  rw [Document.write, hformat] at h
  simp only [OutputFormat.write, Json.writeIndented] at h
  cases hjson : Json.write .indented 0 doc.tree with
  | error e => simp [hjson, Except.map] at h
  | ok json =>
    simp only [hjson, Except.map, Except.ok.injEq] at h
    exact ⟨json, rfl, h.symm⟩

/-- The JSON of a document that was parsed from a valid text is a text of exactly one value, and a
line feed behind it. The value shows the data of the document, and it is what is read. -/
theorem Source.json_of_parse (hparse : s.parse = .ok doc) (hbody : s.body.isValidUtf8 = true)
    (hwrite : doc.write (bytes "json") = .ok text) :
    ∃ json v, text = json ++ [0x0A] ∧ (∀ w, Json.IsText json w ↔ w = v) ∧
      Json.read? text = some v ∧ v.Shows doc.tree.sorted := by
  have hreadable := Source.readable_of_parse hparse (Bytes.isValidUtf8_iff.mp hbody)
  obtain ⟨json, hjson, rfl⟩ := Document.exists_json_of_write hwrite
  obtain ⟨row, rfl, hdata⟩ :=
    Json.exists_shown .indented 0 doc.tree (doc.valid_tree hreadable) hjson
  have htext : Json.IsText row.text row.value := by
    simpa using Json.IsText.around Json.isSpace_nil row.isValue Json.isSpace_nil
  have hline : Json.IsText (row.text ++ [0x0A]) row.value :=
    .around Json.isSpace_nil row.isValue (List.forall_mem_singleton.mpr rfl)
  refine ⟨row.text, row.value, rfl, fun w => ⟨fun hw => ?_, ?_⟩, Json.read?_eq_some hline, ?_⟩
  · have hread := (Json.read?_eq_some hw).symm.trans (Json.read?_eq_some htext)
    exact Option.some.inj hread
  · rintro rfl
    exact htext
  · rw [← hdata]
    exact row.showsData

/-- A comment with characters that are escaped, a string with a quote and a large number. -/
def escapedSource : Source :=
  ⟨bytes "escaped", bytes
    "#\"\\<&>\u2028\x01\ntype A \x7b a(b: Int = -1.5e21, c: C = \"\\\"\"): B \x7d"⟩

theorem escapedSource_json :
    ∃ doc text, escapedSource.parse = .ok doc ∧ doc.write (bytes "json") = .ok text ∧
      ∃ json v, text = json ++ [0x0A] ∧ (∀ w, Json.IsText json w ↔ w = v) ∧
        Json.read? text = some v ∧ v.Shows doc.tree.sorted := by
  have hwritten : (escapedSource.parse.toOption.any fun doc =>
      (doc.write (bytes "json")).isOk) = true := by decide +kernel
  cases hparse : escapedSource.parse with
  | error f =>
    rw [hparse] at hwritten
    nomatch hwritten
  | ok doc =>
    rw [hparse] at hwritten
    cases hwrite : doc.write (bytes "json") with
    | error p =>
      simp [Except.toOption, hwrite, Except.isOk, Except.toBool] at hwritten
    | ok text =>
      exact ⟨doc, text, rfl, hwrite, Source.json_of_parse hparse (by decide) hwrite⟩

end SchemaDoc
