import Mathlib.Data.List.Nodup
import SchemaDoc.Proofs.Data.Order
import SchemaDoc.Proofs.Path
import SchemaDoc.Store.Memory

/-! # Opening targets

A target leads to a clean path from the root, however it is written, and a store
is asked about this path and the paths of the files that it stands for only. So
nothing outside of the root is ever looked at.
-/

namespace SchemaDoc.Store

variable {s s' : Store} {accepts : Bytes → Bool} {target p : Bytes} {paths : List Bytes}

/-- A target stands for a file, or for the accepted files directly in a directory in the order of
their names, of which there is at least one. -/
inductive StandsFor (store : Store) (accepts : Bytes → Bool) (target : Bytes) :
    List Bytes → Prop
  | file (h : store.kind (resolve target) = .ok .file) :
    StandsFor store accepts target [resolve target]
  | directory (h : store.kind (resolve target) = .ok .directory)
      {entries : List (Bytes × EntryKind)} (hentries : store.entries (resolve target) = .ok entries)
      {names : List Bytes}
      (hnames : names.Perm ((entries.filter fun e => e.2 == .file && accepts e.1).map Prod.fst))
      (hsorted : names.Pairwise fun a b => Bytes.le a b = true) (hne : names ≠ []) :
    StandsFor store accepts target (names.map (Path.below (resolve target)))

theorem locate_eq_ok_iff {store : Store} {accepts : Bytes → Bool} {target : Bytes}
    {paths : List Bytes} :
    store.locate accepts target = .ok paths ↔ store.StandsFor accepts target paths := by
  constructor
  · intro h
    rw [locate] at h
    split at h
    · nomatch h
    · next hkind =>
      cases h
      exact .file hkind
    · next hkind =>
      split at h
      · nomatch h
      · next entries hentries =>
        split at h
        · nomatch h
        · next hne =>
          cases h
          refine .directory hkind hentries (List.mergeSort_perm _ _)
            (List.pairwise_mergeSort Bytes.le_trans Bytes.le_total _) ?_
          intro hnil
          exact hne (by rw [select, hnil, List.map_nil])
  · intro h
    cases h with
    | file h => rw [locate, h]
    | directory h hentries hnames hsorted hne =>
      next entries names =>
      have hselect : select accepts (resolve target) entries =
          names.map (Path.below (resolve target)) := by
        rw [select]
        congr 1
        apply List.Perm.eq_of_pairwise (fun a b _ _ => Bytes.le_antisymm) _ hsorted
          ((List.mergeSort_perm _ _).trans hnames.symm)
        exact List.pairwise_mergeSort Bytes.le_trans Bytes.le_total _
      rw [locate, h]
      dsimp only
      rw [hentries]
      dsimp only
      rw [hselect]
      cases names with
      | nil => exact absurd rfl hne
      | cons name names => rfl

theorem isConfined_resolve (target : Bytes) : Path.IsConfined (resolve target) :=
  Path.isConfined_rooted _

namespace StandsFor

theorem ne_nil (h : s.StandsFor accepts target paths) : paths ≠ [] := by
  cases h with
  | file => exact List.cons_ne_nil _ _
  | directory _ _ _ _ hne => rwa [Ne, List.map_eq_nil_iff]

/-- No file is outside of the root, whatever the names of entries are. -/
theorem isConfined (h : s.StandsFor accepts target paths) : ∀ p ∈ paths, Path.IsConfined p := by
  cases h with
  | file =>
    intro p hp
    rw [List.mem_singleton.mp hp]
    exact isConfined_resolve target
  | directory =>
    intro p hp
    obtain ⟨name, -, rfl⟩ := List.mem_map.mp hp
    exact (isConfined_resolve target).below name

end StandsFor

/-- The entries of a directory are told by names, each with one of its own. -/
def NamesEntries (s : Store) (directory : Bytes) : Prop :=
  ∀ entries, s.entries directory = .ok entries →
    (∀ e ∈ entries, Path.IsName e.1) ∧ (entries.map Prod.fst).Nodup

instance (s : Store) (directory : Bytes) : Decidable (s.NamesEntries directory) :=
  match h : s.entries directory with
  | .error _ => isTrue fun _ h' => nomatch h.symm.trans h'
  | .ok entries =>
    decidable_of_iff ((∀ e ∈ entries, Path.IsName e.1) ∧ (entries.map Prod.fst).Nodup)
      ⟨fun hok _ h' => Except.ok.inj (h.symm.trans h') ▸ hok, fun hall => hall entries h⟩

theorem StandsFor.nodup (h : s.StandsFor accepts target paths)
    (hs : s.NamesEntries (resolve target)) : paths.Nodup := by
  cases h with
  | file => exact List.nodup_singleton _
  | directory hkind hentries hnames hsorted hne =>
    next entries names =>
    obtain ⟨hname, hnodup⟩ := hs _ hentries
    have hmem : ∀ name ∈ names, Path.IsName name := by
      intro name hmem
      obtain ⟨e, he, rfl⟩ := List.mem_map.mp (hnames.mem_iff.mp hmem)
      exact hname e (List.mem_of_mem_filter he)
    have hdistinct : names.Nodup :=
      hnames.nodup_iff.mpr (hnodup.sublist (List.filter_sublist.map Prod.fst))
    exact hdistinct.map_on fun a ha b hb =>
      (isConfined_resolve target).below_name_inj (hmem a ha) (hmem b hb)

/-- The root is no file of a target, unless it is a file. -/
theorem StandsFor.ne_root (h : s.StandsFor accepts target paths)
    (hs : s.NamesEntries (resolve target)) (hroot : s.kind [0x2F] = .ok .directory) :
    ∀ p ∈ paths, p ≠ [0x2F] := by
  cases h with
  | file hkind =>
    rw [List.forall_mem_singleton]
    intro heq
    rw [heq, hroot] at hkind
    nomatch hkind
  | directory hkind hentries hnames =>
    rw [List.forall_mem_map]
    intro name hmem heq
    obtain ⟨e, he, rfl⟩ := List.mem_map.mp (hnames.mem_iff.mp hmem)
    have hname := (hs _ hentries).1 e (List.mem_of_mem_filter he)
    have hcomponents := (isConfined_resolve target).components_below_name hname
    rw [heq] at hcomponents
    exact List.append_ne_nil_of_right_ne_nil _ (List.cons_ne_nil _ _) hcomponents.symm

/-- A question about a path. -/
inductive Query where
  | kind (path : Bytes)
  | entries (path : Bytes)
  | read (path : Bytes)
deriving DecidableEq, Repr

namespace Query

def path : Query → Bytes
  | .kind path | .entries path | .read path => path

/-- Two stores have the same answer. -/
def Agrees (s s' : Store) : Query → Prop
  | .kind path => s'.kind path = s.kind path
  | .entries path => s'.entries path = s.entries path
  | .read path => s'.read path = s.read path

end Query

/-- What is asked to open a target and to read its files: the kind of its path, the entries of a
directory, and the text of each file. -/
def queries (s : Store) (accepts : Bytes → Bool) (target : Bytes) : List Query :=
  .kind (resolve target) ::
    ((match s.kind (resolve target) with
      | .ok .directory => [.entries (resolve target)]
      | _ => []) ++
    match s.locate accepts target with
      | .ok paths => paths.map .read
      | .error _ => [])

theorem isConfined_of_mem_queries :
    ∀ q ∈ s.queries accepts target, Path.IsConfined q.path := by
  intro q hq
  rw [queries, List.mem_cons, List.mem_append] at hq
  rcases hq with rfl | hentries | hread
  · exact isConfined_resolve target
  · split at hentries
    · rw [List.mem_singleton.mp hentries]
      exact isConfined_resolve target
    · nomatch hentries
  · cases hlocate : s.locate accepts target with
    | error f =>
      rw [hlocate] at hread
      nomatch hread
    | ok paths =>
      rw [hlocate] at hread
      obtain ⟨p, hp, rfl⟩ := List.mem_map.mp hread
      exact (locate_eq_ok_iff.mp hlocate).isConfined p hp

/-- The entries of a path count only if the path is a directory. -/
theorem locate_congr (hkind : s'.kind (resolve target) = s.kind (resolve target))
    (hentries : s.kind (resolve target) = .ok .directory →
      s'.entries (resolve target) = s.entries (resolve target)) :
    s'.locate accepts target = s.locate accepts target := by
  rw [locate, locate, hkind]
  cases h : s.kind (resolve target) with
  | error p => rfl
  | ok k =>
    cases k with
    | file => rfl
    | directory => rw [hentries h]

theorem body_congr (h : s'.read p = s.read p) : s'.body p = s.body p := by
  rw [body, body, h]

theorem locate_eq_of_agrees (h : ∀ q ∈ s.queries accepts target, q.Agrees s s') :
    s'.locate accepts target = s.locate accepts target := by
  refine locate_congr (h _ List.mem_cons_self) fun hkind => ?_
  exact h (.entries (resolve target)) (by simp [queries, hkind])

theorem body_eq_of_agrees (h : ∀ q ∈ s.queries accepts target, q.Agrees s s')
    (hlocate : s.locate accepts target = .ok paths) : ∀ p ∈ paths, s'.body p = s.body p := by
  intro p hp
  exact body_congr (h (.read p) (by simp [queries, hlocate, hp]))

/-- Opening never leaves the root. Every path that a store is asked about is confined, and nothing
but the answers counts: a store with the same answers has the same files with the same texts. A
target can be opened just when it stands for the file that it names, or for the accepted files
directly in the directory that it names, in the order of their names; their paths are confined as
well, and no two of them are the same. -/
theorem locate_confined (s : Store) (accepts : Bytes → Bool) (target : Bytes) :
    (∀ q ∈ s.queries accepts target, Path.IsConfined q.path) ∧
    (∀ s', (∀ q ∈ s.queries accepts target, q.Agrees s s') →
      s'.locate accepts target = s.locate accepts target ∧
        ∀ paths, s.locate accepts target = .ok paths → ∀ p ∈ paths, s'.body p = s.body p) ∧
    (∀ paths, s.locate accepts target = .ok paths ↔ s.StandsFor accepts target paths) ∧
    ∀ paths, s.locate accepts target = .ok paths →
      (∀ p ∈ paths, Path.IsConfined p) ∧ (s.NamesEntries (resolve target) → paths.Nodup) := by
  refine ⟨isConfined_of_mem_queries, fun s' hagrees => ?_, fun paths => locate_eq_ok_iff,
    fun paths hlocate => ?_⟩
  · exact ⟨locate_eq_of_agrees hagrees, fun paths => body_eq_of_agrees hagrees⟩
  · have hstands := locate_eq_ok_iff.mp hlocate
    exact ⟨hstands.isConfined, hstands.nodup⟩

def shelfStore : Store :=
  (Table.ofList [] [(bytes "/d/b.graphql", bytes "scalar B"), (bytes "/d/a.gql", bytes "scalar A"),
    (bytes "/d/notes.txt", []), (bytes "/secret", bytes "scalar S")]).memory

/-- The same files, but nothing is known about one of them. -/
def lockedStore : Store :=
  shelfStore.troubled fun path =>
    if path = bytes "/secret" then some ⟨some .denied, some .denied, true⟩ else none

def windingTarget : Bytes := bytes "x:///%2E%2e/d//.?y"

theorem shelfStore_confined :
    shelfStore.locate isSchemaFile windingTarget =
      .ok [bytes "/d/a.gql", bytes "/d/b.graphql"] ∧
    (∀ p ∈ [bytes "/d/a.gql", bytes "/d/b.graphql"], Path.IsConfined p) ∧
    [bytes "/d/a.gql", bytes "/d/b.graphql"].Nodup ∧
    lockedStore.locate isSchemaFile windingTarget =
      .ok [bytes "/d/a.gql", bytes "/d/b.graphql"] := by
  have hentries : shelfStore.entries (resolve windingTarget) =
      .ok [(bytes "b.graphql", .file), (bytes "a.gql", .file), (bytes "notes.txt", .file)] := by
    decide +kernel
  have hkind : shelfStore.kind (resolve windingTarget) = .ok .directory := by
    decide +kernel
  have hstands : shelfStore.StandsFor isSchemaFile windingTarget
      ([bytes "a.gql", bytes "b.graphql"].map (Path.below (resolve windingTarget))) :=
    .directory hkind hentries (by decide +kernel) (by decide +kernel) (List.cons_ne_nil _ _)
  have hlocate : shelfStore.locate isSchemaFile windingTarget =
      .ok [bytes "/d/a.gql", bytes "/d/b.graphql"] := by
    rw [locate_eq_ok_iff.mpr hstands]
    decide +kernel
  have hqueries : shelfStore.queries isSchemaFile windingTarget =
      [.kind (bytes "/d"), .entries (bytes "/d"), .read (bytes "/d/a.gql"),
        .read (bytes "/d/b.graphql")] := by
    rw [queries, hlocate, hkind]
    decide +kernel
  have hagrees : ∀ q ∈ shelfStore.queries isSchemaFile windingTarget,
      q.Agrees shelfStore lockedStore := by
    rw [hqueries]
    simp only [List.forall_mem_cons]
    exact ⟨rfl, rfl, rfl, rfl, nofun⟩
  have hnames : shelfStore.NamesEntries (resolve windingTarget) := by decide +kernel
  obtain ⟨-, hsame, -, hpaths⟩ := locate_confined shelfStore isSchemaFile windingTarget
  obtain ⟨hconfined, hnodup⟩ := hpaths _ hlocate
  exact ⟨hlocate, hconfined, hnodup hnames, (hsame _ hagrees).1.trans hlocate⟩

end SchemaDoc.Store
