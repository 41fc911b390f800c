import SchemaDoc.Pass.Printed
import SchemaDoc.Proofs.Descriptions
import SchemaDoc.Proofs.Yaml.KeyOrder

/-! # Printed descriptions and the order of keys

Maps have no order of their own, so their entries may come in any order when a
map is written. JSON sorts keys by their bytes and never shows that order. YAML
sorts them naturally and shows it where digit runs do not fit into a word.
-/

namespace SchemaDoc

theorem Json.writeEntries_eq_ok {l : Layout} {depth : Nat} {entries : List (Bytes × Data)}
    (h : ∀ e ∈ entries, ∃ text, write l depth e.2 = .ok text) :
    writeEntries l depth entries =
      .ok (entries.map fun e => (e.1, (write l depth e.2).toOption.getD [])) := by
  induction entries with
  | nil => rfl
  | cons e entries ih =>
    obtain ⟨⟨text, htext⟩, hentries⟩ := List.forall_mem_cons.mp h
    rw [writeEntries, htext, ih hentries, List.map_cons, htext]
    rfl

/-- Whatever order distinct keys come in, the text of a map is the same, as long as all values have
one. -/
theorem Json.write_map_eq_of_perm (l : Layout) (depth : Nat)
    {entries entries' : List (Bytes × Data)}
    (h : ∀ e ∈ entries, ∃ text, write l (depth + 1) e.2 = .ok text)
    (hnodup : (entries.map Prod.fst).Nodup) (hperm : entries'.Perm entries) :
    write l depth (.map entries') = write l depth (.map entries) := by
  have hsort := Data.sortEntries_eq_of_perm Bytes.le_trans Bytes.le_total
    (fun _ _ _ _ => Bytes.le_antisymm) hnodup hperm
  rw [write, write, writeEntries_eq_ok h,
    writeEntries_eq_ok fun e he => h e (hperm.mem_iff.mp he), Except.map, Except.map,
    ← Data.map_sortEntries fun v => (write l (depth + 1) v).toOption.getD [],
    ← Data.map_sortEntries fun v => (write l (depth + 1) v).toOption.getD [], hsort]

/-- A map that is written takes at least a colon. -/
theorem Yaml.write_map_ne_nil (column : Nat) {entries : List (Bytes × Data)} (hne : entries ≠ []) :
    write column (.map entries) ≠ [] := by
  obtain ⟨e, es, hes⟩ := List.exists_cons_of_ne_nil (Data.sortEntries_ne_nil keyLe hne)
  have hcolon : bytes ":" ≠ [] := by decide
  have hentry : entryText column e ≠ [] := by
    rw [entryText, entry]
    split <;> simp [hcolon]
  rw [write_map column hne, hes, List.map_cons, stack]
  cases es <;> simp [Bytes.join, hentry]

namespace Descriptions

variable {ds ds' : Descriptions}

theorem nodup_toData (h : (ds.map Prod.fst).Nodup) :
    ((ds.map fun e => (e.1, Data.text e.2)).map Prod.fst).Nodup := by
  rwa [List.map_map]

theorem json_toData_of_perm (h : (ds.map Prod.fst).Nodup) (hperm : ds'.Perm ds) (l : Json.Layout)
    (depth : Nat) : Json.write l depth ds'.toData = Json.write l depth ds.toData := by
  refine Json.write_map_eq_of_perm l depth ?_ (nodup_toData h) (hperm.map _)
  simp only [List.forall_mem_map]
  exact fun e _ => ⟨_, rfl⟩

theorem exists_json_toData (ds : Descriptions) (l : Json.Layout) (depth : Nat) :
    ∃ text, Json.write l depth ds.toData = .ok text := by
  rw [toData, Json.write, Json.writeEntries_eq_ok]
  · exact ⟨_, rfl⟩
  · simp only [List.forall_mem_map]
    exact fun e _ => ⟨_, rfl⟩

theorem yaml_toData_of_perm (h : (ds.map Prod.fst).Nodup) (hfits : ∀ e ∈ ds, Yaml.FitsWord e.1)
    (hperm : ds'.Perm ds) (column : Nat) :
    Yaml.write column ds'.toData = Yaml.write column ds.toData := by
  refine Yaml.write_map_eq_of_perm column ?_ (nodup_toData h) (hperm.map _)
  simpa only [List.forall_mem_map] using hfits

theorem isNested_toData_of_perm (hperm : ds'.Perm ds) :
    Yaml.isNested ds'.toData = Yaml.isNested ds.toData := by
  rw [toData, toData, Yaml.isNested, Yaml.isNested, List.isEmpty_map, List.isEmpty_map,
    hperm.isEmpty_eq]

end Descriptions

namespace Pass

variable {path : Bytes} {ds : Descriptions} {entries entries' : List (Bytes × Data)}

private theorem nodup_keys (v w : Data) :
    ([(bytes "file", v), (bytes "descriptions", w)].map Prod.fst).Nodup := by
  change [bytes "file", bytes "descriptions"].Nodup
  decide

namespace Enumerates

theorem json (h : Enumerates path ds entries) (hnodup : (ds.map Prod.fst).Nodup) :
    Json.writeIndented (.map entries) = Json.writeIndented (.map (listed path ds)) := by
  obtain ⟨ds', hds, hentries⟩ := h
  have houter := Json.write_map_eq_of_perm .indented 0
    (List.forall_mem_cons.mpr ⟨⟨_, rfl⟩,
      List.forall_mem_singleton.mpr (ds'.exists_json_toData .indented 1)⟩)
    (nodup_keys _ _) hentries
  rw [Json.writeIndented, Json.writeIndented, listed, houter]
  simp only [Json.write, Json.writeEntries, Descriptions.json_toData_of_perm hnodup hds]

theorem yaml (h : Enumerates path ds entries) (hnodup : (ds.map Prod.fst).Nodup)
    (hfits : ∀ e ∈ ds, Yaml.FitsWord e.1) :
    Yaml.writeDocument (.map entries) = Yaml.writeDocument (.map (listed path ds)) := by
  obtain ⟨ds', hds, hentries⟩ := h
  have hfile : Yaml.FitsWord (bytes "file") := Yaml.fitsWord_of_length_le (by decide)
  have hdescriptions : Yaml.FitsWord (bytes "descriptions") :=
    Yaml.fitsWord_of_length_le (by decide)
  have houter := Yaml.write_map_eq_of_perm 0
    (List.forall_mem_cons.mpr ⟨hfile, List.forall_mem_singleton.mpr hdescriptions⟩)
    (nodup_keys _ _) hentries
  rw [Yaml.writeDocument, Yaml.writeDocument, listed, houter]
  simp only [Yaml.write, Yaml.writeEntries, Yaml.behindKey,
    Descriptions.yaml_toData_of_perm hnodup hfits hds, Descriptions.isNested_toData_of_perm hds]

theorem write_eq {d : Document Span} {f : OutputFormat}
    (h : Enumerates path (.ofDocument d) entries)
    (h' : Enumerates path (.ofDocument d) entries')
    (hfits : Printed.descriptionFormat f = .yaml →
      ∀ e ∈ Descriptions.ofDocument d, Yaml.FitsWord e.1) :
    (Printed.descriptionFormat f).write (.map entries) =
      (Printed.descriptionFormat f).write (.map entries') := by
  have hnodup := Descriptions.nodup_foldl_set (Description.listing d)
  cases hf : Printed.descriptionFormat f with
  | none => rfl
  | json => rw [OutputFormat.write, OutputFormat.write, h.json hnodup, h'.json hnodup]
  | yaml =>
    rw [OutputFormat.write, OutputFormat.write, h.yaml hnodup (hfits hf), h'.yaml hnodup (hfits hf)]

/-- Descriptions can be written in whatever order they come, and they always take some text. -/
theorem exists_write (h : Enumerates path ds entries) (f : OutputFormat) :
    ∃ text, (Printed.descriptionFormat f).write (.map entries) = .ok text ∧ text ≠ [] := by
  obtain ⟨ds', -, hentries⟩ := h
  have hne : entries ≠ [] := fun h => List.cons_ne_nil _ _ (List.nil_perm.mp (h ▸ hentries))
  have hvalues : ∀ e ∈ entries, ∃ text, Json.write .indented 1 e.2 = .ok text := by
    intro e he
    have he := hentries.mem_iff.mp he
    rw [listed, List.mem_cons, List.mem_singleton] at he
    rcases he with rfl | rfl
    · exact ⟨_, rfl⟩
    · exact ds'.exists_json_toData .indented 1
  have json : ∃ text, OutputFormat.json.write (.map entries) = .ok text ∧ text ≠ [] := by
    rw [OutputFormat.write, Json.writeIndented, Json.write, Json.writeEntries_eq_ok hvalues]
    exact ⟨_, rfl, List.append_ne_nil_of_right_ne_nil _ (List.cons_ne_nil _ _)⟩
  cases f with
  | json => exact json
  | yaml => exact ⟨_, rfl, Yaml.write_map_ne_nil 0 hne⟩
  | none => exact json

end Enumerates

namespace Printed

/-- Printed descriptions do not show the order in which the entries of the map come: never as JSON,
and not as YAML when the digit runs of all keys fit into a word. The natural order behind it is
irreflexive, has one order for any two keys, and is transitive on keys that fit. -/
theorem descriptions_unordered (path : Bytes) (d : Document Span) (f : OutputFormat) :
    (∀ entries entries', Enumerates path (.ofDocument d) entries →
      Enumerates path (.ofDocument d) entries' →
      (descriptionFormat f = .yaml → ∀ e ∈ Descriptions.ofDocument d, Yaml.FitsWord e.1) →
      (descriptionFormat f).write (.map entries) =
        (descriptionFormat f).write (.map entries')) ∧
    (∀ x, Yaml.keyLtFrom [] x x = false) ∧
    (∀ x y, x ≠ y → Yaml.keyLtFrom [] y x = !Yaml.keyLtFrom [] x y) ∧
    ∀ x y z, Yaml.FitsWord x → Yaml.FitsWord y → Yaml.FitsWord z →
      Yaml.keyLtFrom [] x y = true → Yaml.keyLtFrom [] y z = true →
        Yaml.keyLtFrom [] x z = true := by
  exact ⟨fun entries entries' h h' hfits => h.write_eq h' hfits, Yaml.keyLtFrom_irrefl [],
    fun x y => Yaml.keyLtFrom_swap, fun x y z => Yaml.keyLt_trans⟩

/-- Three types whose digit runs are one, the greatest number of a word, and the next number. -/
def longRunSource : Source :=
  ⟨bytes "runs", bytes <|
    "#a\nscalar T1\n#b\nscalar T9223372036854775807\n#c\nscalar T9223372036854775808\n"⟩

def longRunDescriptions : Descriptions :=
  [(bytes "T1", bytes "a"), (bytes "T9223372036854775807", bytes "b"),
    (bytes "T9223372036854775808", bytes "c")]

/-- The same descriptions, the first of them last. -/
def turnedDescriptions : Descriptions := longRunDescriptions.drop 1 ++ longRunDescriptions.take 1

/-- The natural order goes round in a circle, and the printed text shows where it was entered. -/
theorem longRunSource_ordered :
    ∃ d, longRunSource.parse = .ok d ∧ Descriptions.ofDocument d = longRunDescriptions ∧
      Yaml.keyLtFrom [] (bytes "T1") (bytes "T9223372036854775807") = true ∧
      Yaml.keyLtFrom [] (bytes "T9223372036854775807") (bytes "T9223372036854775808") = true ∧
      Yaml.keyLtFrom [] (bytes "T9223372036854775808") (bytes "T1") = true ∧
      ∃ entries entries', Enumerates (bytes "/a") (.ofDocument d) entries ∧
        Enumerates (bytes "/a") (.ofDocument d) entries' ∧
        (descriptionFormat .yaml).write (.map entries) ≠
          (descriptionFormat .yaml).write (.map entries') := by
  have hall : longRunSource.parse.toOption.map Descriptions.ofDocument =
      some longRunDescriptions := by decide +kernel
  obtain ⟨d, hd, hdescriptions⟩ := Option.map_eq_some_iff.mp hall
  cases h : longRunSource.parse with
  | error f =>
    rw [h] at hd
    nomatch hd
  | ok d' =>
    rw [h] at hd
    cases hd
    have htexts : Yaml.writeDocument (.map (listed (bytes "/a") longRunDescriptions)) ≠
        Yaml.writeDocument (.map (listed (bytes "/a") turnedDescriptions)) := by decide +kernel
    refine ⟨d, rfl, hdescriptions, by decide +kernel, by decide +kernel, by decide +kernel,
      listed (bytes "/a") longRunDescriptions, listed (bytes "/a") turnedDescriptions, ?_, ?_,
      fun heq => htexts (Except.ok.inj heq)⟩
    · rw [hdescriptions]
      exact ⟨_, .refl _, .refl _⟩
    · rw [hdescriptions]
      exact ⟨_, List.perm_append_comm, .refl _⟩

end Printed

end Pass

end SchemaDoc
