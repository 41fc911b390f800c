import SchemaDoc.Proofs.Store.Opening
import SchemaDoc.Proofs.Uri

/-! # Opening files by the paths that are told

The path that a file is found under is made of the names in the store, and a
target is read as an identifier. So the path leads back to the file when it is
read as it stands, and to another path, or to none, when a name has a mark that
an identifier gives a meaning to.
-/

namespace SchemaDoc.Store

variable {s : Store} {accepts : Bytes → Bool} {target path : Bytes} {paths : List Bytes}

theorem resolve_eq_self_iff (h : Path.IsConfined path) :
    resolve path = path ↔ Uri.path? path = none ∨ Uri.IsUnmarked path :=
  Uri.rooted_target_eq_self_iff h

/-- The path of a file that was found is resolved to itself just when it is no identifier or has no
mark of a fragment, of a query or of an encoded byte. If it is, and if the store knows the path as
that of a file, then the path as a target stands for this file alone, with the same text. -/
theorem reopen_of_locate (hlocate : s.locate accepts target = .ok paths) (hpath : path ∈ paths)
    (hkind : s.kind path = .ok .file) :
    (resolve path = path ↔ Uri.path? path = none ∨ Uri.IsUnmarked path) ∧
      (resolve path = path →
        (s.locate accepts path).map (List.map fun p => (p, s.body p)) =
          .ok [(path, s.body path)]) := by
  have hconfined : Path.IsConfined path := (locate_eq_ok_iff.mp hlocate).isConfined path hpath
  refine ⟨resolve_eq_self_iff hconfined, fun hself => ?_⟩
  have hstands : s.StandsFor accepts path [resolve path] := .file (hself.symm ▸ hkind)
  rw [locate_eq_ok_iff.mpr hstands, hself]
  rfl

def percentStore : Store := (Table.ofList [] [(bytes "/d/50%.gql", bytes "scalar A")]).memory

theorem percentStore_reopen :
    percentStore.locate isSchemaFile (bytes "d") = .ok [bytes "/d/50%.gql"] ∧
    (percentStore.locate isSchemaFile (bytes "/d/50%.gql")).map
        (List.map fun p => (p, percentStore.body p)) =
      .ok [(bytes "/d/50%.gql", percentStore.body (bytes "/d/50%.gql"))] := by
  have hentries : percentStore.entries (resolve (bytes "d")) = .ok [(bytes "50%.gql", .file)] := by
    decide +kernel
  have hstands : percentStore.StandsFor isSchemaFile (bytes "d")
      ([bytes "50%.gql"].map (Path.below (resolve (bytes "d")))) :=
    .directory (by decide +kernel) hentries (by decide +kernel) (by decide +kernel)
      (List.cons_ne_nil _ _)
  have hlocate : percentStore.locate isSchemaFile (bytes "d") = .ok [bytes "/d/50%.gql"] := by
    rw [locate_eq_ok_iff.mpr hstands]
    decide +kernel
  obtain ⟨hself, hreopen⟩ :=
    reopen_of_locate hlocate (List.mem_singleton_self _) (by decide +kernel)
  exact ⟨hlocate, hreopen (hself.mpr (.inl (by decide +kernel)))⟩

/-- One file whose name is read as another name, and one whose kind the store does not tell. -/
def strayStore : Store :=
  (Table.ofList [] [(bytes "/a%62.graphql", bytes "scalar A"),
    (bytes "/c.graphql", bytes "scalar C")]).memory.troubled fun path =>
      if path = bytes "/c.graphql" then some ⟨some .denied, none, false⟩ else none

/-- Both files are found in their directory, and neither is found again. -/
theorem strayStore_lost :
    strayStore.locate isSchemaFile (bytes "/") =
      .ok [bytes "/a%62.graphql", bytes "/c.graphql"] ∧
    (∃ f, strayStore.locate isSchemaFile (bytes "/a%62.graphql") = .error f) ∧
    (∃ f, strayStore.locate isSchemaFile (bytes "/c.graphql") = .error f) := by
  have hentries : strayStore.entries (resolve (bytes "/")) =
      .ok [(bytes "a%62.graphql", .file), (bytes "c.graphql", .file)] := by
    decide +kernel
  have hstands : strayStore.StandsFor isSchemaFile (bytes "/")
      ([bytes "a%62.graphql", bytes "c.graphql"].map (Path.below (resolve (bytes "/")))) :=
    .directory (by decide +kernel) hentries (by decide +kernel) (by decide +kernel)
      (List.cons_ne_nil _ _)
  refine ⟨?_, ⟨_, rfl⟩, ⟨_, rfl⟩⟩
  rw [locate_eq_ok_iff.mpr hstands]
  decide +kernel

end SchemaDoc.Store
