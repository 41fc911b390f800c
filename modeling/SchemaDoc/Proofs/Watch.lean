import SchemaDoc.CommandLine
import SchemaDoc.Proofs.Pass.Output
import SchemaDoc.Proofs.Uri
import SchemaDoc.Store.Disk

/-! # Watched directories and the files of a pass

A pass reads a target as an identifier and keeps it below the root, and the
watched directories come from the target as it stands. Both lead to the same
place for a target that stands for itself and does not climb out of the root;
then every file of the pass lies in a watched directory.
-/

namespace SchemaDoc

theorem nodup_eraseDups {α : Type} [BEq α] [LawfulBEq α] : ∀ as : List α, as.eraseDups.Nodup
  | [] => List.nodup_nil
  | a :: as => by
    rw [List.eraseDups_cons, List.nodup_cons]
    exact ⟨by simp [List.mem_eraseDups], nodup_eraseDups _⟩
termination_by as => as.length
decreasing_by exact Nat.lt_succ_of_le (List.length_filter_le _ _)

/-- A run counts once, where it begins. -/
theorem eraseDups_replicate_append {α : Type} [BEq α] [LawfulBEq α] (n : Nat) (a : α) (as : List α) :
    (List.replicate (n + 1) a ++ as).eraseDups = a :: (as.filter fun b => !b == a).eraseDups := by
  rw [List.replicate_succ, List.cons_append, List.eraseDups_cons, List.filter_append,
    List.filter_replicate_of_neg (by simp), List.nil_append]

/-- The directory of a file below a root; standard input is in none. -/
def Pass.Item.directory? (root : Bytes) : Item → Option Bytes
  | .input => none
  | .file path => some (Path.parent (Path.below root path))

namespace Watch

open Pass

variable {disk : Store} {root target : Bytes} {paths targets : List Bytes} {c : PassContext}

theorem below_resolve_eq (hroot : Path.IsConfined root) (hself : Uri.target target = target)
    (hclimbs : root = [0x2F] ∨ ¬Path.Climbs target) :
    Path.below root (Store.resolve target) = Path.below root target := by
  rw [Store.resolve, hself]
  exact ((hroot.below_eq_below_rooted_iff target).mpr hclimbs).symm

def directory (root target : Bytes) (k : EntryKind) : Bytes :=
  if k = .directory then Path.below root target else Path.parent (Path.below root target)

/-- All files of a target are in the directory that it is watched through, and there are some. -/
theorem exists_directory (hroot : Path.IsConfined root)
    (hself : Path.below root (Store.resolve target) = Path.below root target)
    (hnames : (disk.below root).NamesEntries (Store.resolve target))
    (hstands : (disk.below root).StandsFor isSchemaFile target paths) :
    ∃ k, disk.kind (Path.below root target) = .ok k ∧ paths ≠ [] ∧
      ∀ path ∈ paths, Path.parent (Path.below root path) = directory root target k := by
  have hconfined := Store.isConfined_resolve target
  have hne := hstands.ne_nil
  cases hstands with
  | file hkind =>
    refine ⟨.file, hself ▸ hkind, hne, fun path hpath => ?_⟩
    rw [List.mem_singleton.mp hpath, hself]
    rfl
  | directory hkind hentries hperm =>
    refine ⟨.directory, hself ▸ hkind, hne, fun path hpath => ?_⟩
    obtain ⟨name, hname, rfl⟩ := List.mem_map.mp hpath
    obtain ⟨e, he, rfl⟩ := List.mem_map.mp (hperm.mem_iff.mp hname)
    have hname := (hnames _ hentries).1 e (List.mem_of_mem_filter he)
    rw [hroot.parent_below hconfined hname, hself]
    rfl

def fileDirectories (c : PassContext) (root : Bytes) (targets : List Bytes) : List Bytes :=
  (allItems c targets).filterMap (Item.directory? root)

theorem fileDirectories_cons (c : PassContext) (root t : Bytes) (targets : List Bytes) :
    fileDirectories c root (t :: targets) =
      ((itemsOf c t).toOption.getD []).filterMap (Item.directory? root) ++
        fileDirectories c root targets := by
  rw [fileDirectories, allItems, List.flatMap_cons, List.filterMap_append]
  rfl

/-- A target has files, and they are all in the directory that it is watched through. -/
def Leads (disk : Store) (root : Bytes) (c : PassContext) (target : Bytes) : Prop :=
  ∃ k n, disk.kind (Path.below root target) = .ok k ∧
    ((itemsOf c target).toOption.getD []).filterMap (Item.directory? root) =
      List.replicate (n + 1) (directory root target k)

theorem leads_of_located (hstore : c.store = disk.below root) (hroot : Path.IsConfined root)
    (hinput : target ≠ inputTarget)
    (hself : Path.below root (Store.resolve target) = Path.below root target)
    (hnames : c.store.NamesEntries (Store.resolve target))
    (hlocate : c.store.locate isSchemaFile target = .ok paths) : Leads disk root c target := by
  have hitems : itemsOf c target = .ok (paths.map .file) := by
    rw [itemsOf, if_neg hinput, hlocate]
    rfl
  rw [hstore] at hnames hlocate
  obtain ⟨k, hkind, hne, hdirectory⟩ :=
    exists_directory hroot hself hnames (Store.locate_eq_ok_iff.mp hlocate)
  refine ⟨k, paths.length - 1, hkind, ?_⟩
  have hdirectories : (paths.map Item.file).filterMap (Item.directory? root) =
      paths.map fun path => Path.parent (Path.below root path) := by
    rw [List.filterMap_map, ← List.filterMap_eq_map]
    rfl
  rw [Nat.sub_add_cancel (List.length_pos_iff.mpr hne), hitems, Except.toOption, Option.getD_some,
    hdirectories]
  exact List.eq_replicate_iff.mpr ⟨List.length_map _, List.forall_mem_map.mpr hdirectory⟩

theorem directoriesFrom_cons (seen : List Bytes) {k : EntryKind} (hinput : target ≠ inputTarget)
    (hkind : disk.kind (Path.below root target) = .ok k) :
    directoriesFrom disk root seen (target :: targets) =
      if seen.contains (directory root target k) then directoriesFrom disk root seen targets
      else (directoriesFrom disk root (directory root target k :: seen) targets).map
        (directory root target k :: ·) := by
  rw [directoriesFrom, if_neg hinput]
  dsimp only
  rw [hkind]
  rfl

/-- The loop over the targets leaves out what it has seen and takes the rest in order of first
occurrence. -/
theorem directoriesFrom_eq (seen : List Bytes)
    (h : ∀ t ∈ targets, t ≠ inputTarget → Leads disk root c t) :
    directoriesFrom disk root seen targets =
      .ok ((fileDirectories c root targets).filter fun d => !seen.contains d).eraseDups := by
  induction targets generalizing seen with
  | nil => rfl
  | cons t targets ih =>
    obtain ⟨ht, htargets⟩ := List.forall_mem_cons.mp h
    rw [fileDirectories_cons]
    by_cases hinput : t = inputTarget
    · rw [directoriesFrom, if_pos hinput, ih seen htargets, itemsOf, if_pos hinput]
      rfl
    · obtain ⟨k, n, hkind, hreplicate⟩ := ht hinput
      rw [directoriesFrom_cons seen hinput hkind, hreplicate, List.filter_append]
      cases hseen : seen.contains (directory root t k) with
      | true =>
        rw [if_pos rfl, ih seen htargets, List.filter_replicate_of_neg (by simp_all),
          List.nil_append]
      | false =>
        rw [if_neg Bool.false_ne_true, ih _ htargets, List.filter_replicate_of_pos (by simp_all),
          eraseDups_replicate_append, List.filter_filter]
        simp only [Except.map, List.contains_cons, Bool.not_or]

theorem directories_eq (h : ∀ t ∈ targets, t ≠ inputTarget → Leads disk root c t) :
    directories disk root targets = .ok (fileDirectories c root targets).eraseDups := by
  rw [directories, directoriesFrom_eq [] h]
  simp

/-- The file of a target is under a root that is a directory, and so is its own directory. -/
theorem isUnder_of_mem_fileDirectories (hstore : c.store = disk.below root)
    (hroot : Path.IsConfined root) (hkind : disk.kind root = .ok .directory)
    (hnames : ∀ t ∈ targets, c.store.NamesEntries (Store.resolve t)) :
    ∀ d ∈ fileDirectories c root targets, Path.IsUnder root d := by
  intro d hd
  obtain ⟨item, hitem, hd⟩ := List.mem_filterMap.mp hd
  cases item with
  | input => nomatch hd
  | file path =>
    cases hd
    obtain ⟨t, ht, paths, hlocate, hpath⟩ := exists_locate_of_file_mem hitem
    have hstands := Store.locate_eq_ok_iff.mp hlocate
    have hdirectory : c.store.kind [0x2F] = .ok .directory := by
      rw [hstore]
      exact (congrArg disk.kind hroot.below_root).trans hkind
    exact Path.isUnder_parent_below hroot (hstands.isConfined path hpath)
      (hstands.ne_root (hnames t ht) hdirectory path hpath)

end Watch

namespace Invocation

open Pass

variable {i : Invocation} {s : Settings} {log : Log} {targets : List Bytes}

theorem isConfined_root (h : Path.IsConfined i.workingDirectory) : Path.IsConfined (i.root s) :=
  Path.isConfined_absolute h s.root

/-- The watched directories are those of the files of the first pass, each once and in the order of
first occurrence, if each target can be opened, stands for itself and does not climb out of the
root. So every file that the pass reads is in a watched directory, and nothing is watched that is
not under the root. -/
theorem watched_directories (hworking : Path.IsConfined i.workingDirectory)
    (hopen : ∀ t ∈ targets, t ≠ inputTarget →
      ∃ paths, (i.context s log).store.locate isSchemaFile t = .ok paths)
    (hself : ∀ t ∈ targets, t ≠ inputTarget →
      Uri.target t = t ∧ (i.root s = [0x2F] ∨ ¬Path.Climbs t))
    (hnames : ∀ t ∈ targets, (i.context s log).store.NamesEntries (Store.resolve t)) :
    ∃ directories, Watch.directories i.disk (i.root s) targets = .ok directories ∧
      directories = ((Opening.ofTargets (i.context s log) targets).items.filterMap
        (Item.directory? (i.root s))).eraseDups ∧
      directories.Nodup ∧
      (∀ path, .file path ∈ (Opening.ofTargets (i.context s log) targets).items →
        Path.parent (Path.below (i.root s) path) ∈ directories) ∧
      (i.disk.kind (i.root s) = .ok .directory → ∀ d ∈ directories, Path.IsUnder (i.root s) d) := by
  have hroot : Path.IsConfined (i.root s) := isConfined_root hworking
  have hleads : ∀ t ∈ targets, t ≠ inputTarget →
      Watch.Leads i.disk (i.root s) (i.context s log) t := by
    intro t ht hinput
    obtain ⟨paths, hlocate⟩ := hopen t ht hinput
    obtain ⟨htarget, hclimbs⟩ := hself t ht hinput
    exact Watch.leads_of_located rfl hroot hinput
      (Watch.below_resolve_eq hroot htarget hclimbs) (hnames t ht) hlocate
  rw [Opening.items_ofTargets hopen]
  refine ⟨_, Watch.directories_eq hleads, rfl, nodup_eraseDups _, fun path hpath => ?_,
    fun hkind d hd => ?_⟩
  · exact List.mem_eraseDups.mpr (List.mem_filterMap.mpr ⟨.file path, hpath, rfl⟩)
  · exact Watch.isUnder_of_mem_fileDirectories rfl hroot hkind hnames d (List.mem_eraseDups.mp hd)

def nest : Invocation where
  arguments := []
  environment _ := none
  processors := 1
  workingDirectory := bytes "/w"
  disk := Disk.store (Table.ofList []
    [(bytes "/w/e.graphql", []), (bytes "/w/r/e.graphql", []), (bytes "/w/r/d/b.graphql", []),
      (bytes "/w/r/d/a.gql", [])])
  input := .text []
  outputOpen := true
  cancelled := false
  time := []
  elapsed := .null

def nestSettings : Settings := { Settings.initial with root := bytes "r" }

def nestTargets : List Bytes := [bytes "d/../d/", bytes "-", bytes "e.graphql"]

theorem nest_watched :
    Watch.directories nest.disk (nest.root nestSettings) nestTargets =
      .ok [bytes "/w/r/d", bytes "/w/r"] ∧
    (∀ path, .file path ∈ (Opening.ofTargets (nest.context nestSettings .off) nestTargets).items →
      Path.parent (Path.below (nest.root nestSettings) path) ∈ [bytes "/w/r/d", bytes "/w/r"]) ∧
    ∀ d ∈ [bytes "/w/r/d", bytes "/w/r"], Path.IsUnder (nest.root nestSettings) d := by
  have hdirectory : (nest.context nestSettings .off).store.entries
      (Store.resolve (bytes "d/../d/")) =
        .ok [(bytes "b.graphql", .file), (bytes "a.gql", .file)] := by
    decide +kernel
  have hstands : (nest.context nestSettings .off).store.StandsFor isSchemaFile (bytes "d/../d/")
      ([bytes "a.gql", bytes "b.graphql"].map (Path.below (Store.resolve (bytes "d/../d/")))) :=
    .directory (by decide +kernel) hdirectory (by decide +kernel) (by decide +kernel)
      (List.cons_ne_nil _ _)
  have hopen : ∀ t ∈ nestTargets, t ≠ inputTarget →
      ∃ paths, (nest.context nestSettings .off).store.locate isSchemaFile t = .ok paths := by
    simp only [nestTargets, List.forall_mem_cons]
    exact ⟨fun _ => ⟨_, Store.locate_eq_ok_iff.mpr hstands⟩, fun hne => absurd rfl hne,
      fun _ => ⟨_, rfl⟩, nofun⟩
  have hself : ∀ t ∈ nestTargets, t ≠ inputTarget →
      Uri.target t = t ∧ (nest.root nestSettings = [0x2F] ∨ ¬Path.Climbs t) := by decide +kernel
  have hnames : ∀ t ∈ nestTargets,
      (nest.context nestSettings .off).store.NamesEntries (Store.resolve t) := by decide +kernel
  obtain ⟨directories, hok, -, -, hfiles, hunder⟩ :=
    watched_directories (by decide +kernel) hopen hself hnames
  have hwatched : Watch.directories nest.disk (nest.root nestSettings) nestTargets =
      .ok [bytes "/w/r/d", bytes "/w/r"] := by decide +kernel
  cases hok.symm.trans hwatched
  exact ⟨hwatched, hfiles, hunder (by decide +kernel)⟩

/-- A target that is decoded is not found again, and one that climbs is watched in vain. -/
theorem nest_unwatched :
    (nest.context nestSettings .off).store.locate isSchemaFile (bytes "%65.graphql") =
      .ok [bytes "/e.graphql"] ∧
    (∃ p, Watch.directories nest.disk (nest.root nestSettings) [bytes "%65.graphql"] = .error p) ∧
    (nest.context nestSettings .off).store.locate isSchemaFile (bytes "../e.graphql") =
      .ok [bytes "/e.graphql"] ∧
    Path.parent (Path.below (nest.root nestSettings) (bytes "/e.graphql")) = bytes "/w/r" ∧
    Watch.directories nest.disk (nest.root nestSettings) [bytes "../e.graphql"] =
      .ok [bytes "/w"] := by
  refine ⟨by decide +kernel, ⟨_, rfl⟩, by decide +kernel, by decide +kernel, by decide +kernel⟩

end Invocation

end SchemaDoc
