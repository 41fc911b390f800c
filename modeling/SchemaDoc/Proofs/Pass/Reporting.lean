import SchemaDoc.Proofs.Pass.Output
import SchemaDoc.Proofs.Report

/-! # The failures that a pass shows

A pass whose failures all concern single files shows one line for each target
and file that failed, sorted by name and offset. The lines of one name and
offset are shown in the order in which they were told, and that is a matter of
the schedule: when all files go by one name, two of them may fail at one offset
with different messages. Nothing else about the lines depends on the schedule.
-/

namespace SchemaDoc

namespace Pass

variable {s : Settings} {c : PassContext} {targets : List Bytes} {item item' : Item}

theorem exists_of_file_mem {path : Bytes} (h : .file path ∈ allItems c targets) :
    ∃ rest, path = 0x2F :: rest := by
  obtain ⟨t, -, paths, hlocate, hpath⟩ := exists_locate_of_file_mem h
  exact ((Store.locate_eq_ok_iff.mp hlocate).isConfined path hpath).exists_cons

theorem path_inj (h : item ∈ allItems c targets) (h' : item' ∈ allItems c targets)
    (hpath : item.path = item'.path) : item = item' := by
  cases item with
  | input =>
    cases item' with
    | input => rfl
    | file path =>
      obtain ⟨rest, rfl⟩ := exists_of_file_mem h'
      exact absurd (List.cons.inj hpath).1 (by decide)
  | file path =>
    cases item' with
    | input =>
      obtain ⟨rest, rfl⟩ := exists_of_file_mem h
      exact absurd (List.cons.inj hpath).1 (by decide)
    | file path' => exact congrArg Item.file hpath

theorem path_ne_nil (h : item ∈ allItems c targets) : item.path ≠ [] := by
  cases item with
  | input => exact List.cons_ne_nil _ _
  | file path =>
    obtain ⟨rest, rfl⟩ := exists_of_file_mem h
    exact List.cons_ne_nil _ _

theorem uri_of_parse {source : Source} {f : Fault} (h : source.parse = .error f) :
    f.place.uri = source.name := by
  rw [Source.parse] at h
  split at h
  · cases h
  · cases h
    rfl

theorem uri_of_fault {f : Fault} (hname : s.sourceName = [])
    (hread : ∀ path, item = .file path → ∀ f, c.store.body path = .error f → f.place.uri = path)
    (hpath : item.path ≠ []) (h : item.fault? s c = some f) : f.place.uri = item.path := by
  have hbody : ∀ f, item.body c.store c.input = .error f → f.place.uri = item.path := by
    cases item with
    | file path => exact hread path rfl
    | input =>
      intro f hf
      change c.input.body = .error f at hf
      cases hinput : c.input with
      | text rest =>
        rw [hinput] at hf
        nomatch hf
      | failing message =>
        rw [hinput] at hf
        cases hf
        rfl
  have h := faultOf_eq_some_iff.mp h
  rw [Item.outcome] at h
  cases htext : item.body c.store c.input with
  | error g =>
    rw [htext] at h
    cases h
    exact hbody f htext
  | ok text =>
    rw [htext] at h
    rw [uri_of_parse h, Progress.source, hname, Source.named]
    exact if_neg (by simpa using hpath)

/-- Standard error: what the log says about targets and documents, the problem with printing if
there is one, and a line for each fault that tells its place, its code and its message. -/
def errorText (c : PassContext) (opened : List Bytes) (parsed : List (Bytes × Document Span))
    (problem : Option PrintProblem) (listed : List Fault) : Bytes :=
  openingLog c opened ++ parsedLog c parsed ++ (problem.map fun q => line q.message).getD [] ++
    listed.flatMap fun f =>
      f.place.text ++ bytes " -- " ++ f.code ++ bytes ": " ++ f.message ++ bytes "\n"

def itemFaults (s : Settings) (c : PassContext) (targets : List Bytes) : List Fault :=
  (allItems c targets).filterMap (Item.fault? s c)

/-- Under a schedule a pass shows one line for each target and item that failed, in a list that is
sorted by name and offset, behind what it says about all targets and all documents. -/
structure Shows (s : Settings) (c : PassContext) (targets : List Bytes) (events : List Event)
    (problem : Option PrintProblem) (listed : List Fault) : Prop where
  errors : ∃ parsed, parsed.Perm (files s c targets) ∧
    (runWith s c (fun _ => events) targets).errors = errorText c targets parsed problem listed
  perm : listed.Perm (openingFaults c targets ++ itemFaults s c targets)
  sorted : listed.Pairwise Report.NotAfter

/-- What is shown is the report of the faults of the opening, in the order of the targets, and then
those of the items in some order. -/
theorem exists_shows (hcancelled : c.cancelled = false) (hinput : targets.count inputTarget ≤ 1)
    (hopen : ∀ t ∈ targets, ∀ f, itemsOf c t = .error f → f.code ∈ harmless)
    (hread : ∀ item ∈ allItems c targets, ∀ f, item.body c.store c.input = .error f →
      f.code ∈ harmless)
    {limit : Nat} {events : List Event}
    (hevents : Event.isSchedule limit (allItems c targets).length events) :
    ∃ told, told.Perm (itemFaults s c targets) ∧
      Shows s c targets events
        (Printed.ofResults s c.order c.outputOpen (files s c targets)).problem
        (Report.sorted ⟨harmless, openingFaults c targets ++ told⟩) := by
  obtain ⟨done, p, hdone, hrun⟩ := exists_runWith_eq (s := s) hcancelled hinput hopen hread hevents
  have hperm : (done.reverse.filterMap (faultAt s c (allItems c targets))).Perm
      (itemFaults s c targets) := hdone.filterMap_perm (Item.fault? s c)
  have harranged := Report.arranges_sorted ⟨harmless, openingFaults c targets ++
    done.reverse.filterMap (faultAt s c (allItems c targets))⟩
  refine ⟨_, hperm, ⟨_, hdone.filterMap_perm (Item.parsed? s c), ?_⟩,
    harranged.perm.trans (hperm.append_left _), harranged.sorted⟩
  rw [hrun, hdone.report, hdone.log]
  rfl

/-- Whatever order its events take, a pass over targets of which at most one is standard input, and
whose failures all are of the kinds that concern a single file, shows the same number of lines with
the same names and offsets in the same order. They are the same lines if any two failures of items
with one name and offset are equal. Files that go by their own paths, and whose failures are told
under these paths by the store, never share a name. -/
theorem shows_of_schedules (hcancelled : c.cancelled = false)
    (hinput : targets.count inputTarget ≤ 1)
    (hopen : ∀ t ∈ targets, ∀ f, itemsOf c t = .error f → f.code ∈ harmless)
    (hread : ∀ item ∈ allItems c targets, ∀ f, item.body c.store c.input = .error f →
      f.code ∈ harmless)
    {limit limit' : Nat} {events events' : List Event}
    (hevents : Event.isSchedule limit (allItems c targets).length events)
    (hevents' : Event.isSchedule limit' (allItems c targets).length events') :
    ∃ problem listed listed',
      Shows s c targets events problem listed ∧ Shows s c targets events' problem listed' ∧
      listed.map Fault.spot = listed'.map Fault.spot ∧
      ((∀ f ∈ itemFaults s c targets, ∀ g ∈ itemFaults s c targets, f.spot = g.spot → f = g) →
        listed = listed') ∧
      (s.sourceName = [] →
        (∀ path, .file path ∈ allItems c targets →
          ∀ f, c.store.body path = .error f → f.place.uri = path) →
        listed = listed') := by
  obtain ⟨told, hperm, hshows⟩ := exists_shows (s := s) hcancelled hinput hopen hread hevents
  obtain ⟨told', hperm', hshows'⟩ := exists_shows (s := s) hcancelled hinput hopen hread hevents'
  have hties (hagree : ∀ f ∈ itemFaults s c targets, ∀ g ∈ itemFaults s c targets,
      f.spot = g.spot → f = g) :
      Report.sorted ⟨harmless, openingFaults c targets ++ told⟩ =
        Report.sorted ⟨harmless, openingFaults c targets ++ told'⟩ := by
    apply Report.sorted_eq_of_filter_eq
    intro spot
    rw [List.filter_append, List.filter_append,
      Report.filter_eq_of_perm (hperm.trans hperm'.symm) fun f hf g hg =>
        hagree f (hperm.mem_iff.mp hf) g (hperm.mem_iff.mp hg)]
  refine ⟨_, _, _, hshows, hshows', ?_, hties, ?_⟩
  · exact Report.map_spot_eq_of_perm (hshows.perm.trans hshows'.perm.symm) hshows.sorted
      hshows'.sorted
  · intro hname htold
    apply hties
    intro f hf g hg hspot
    obtain ⟨item, hitem, hf⟩ := List.mem_filterMap.mp hf
    obtain ⟨item', hitem', hg⟩ := List.mem_filterMap.mp hg
    have huri {item : Item} (hitem : item ∈ allItems c targets) {f : Fault}
        (hf : item.fault? s c = some f) : f.place.uri = item.path :=
      uri_of_fault hname (fun path hpath => htold path (hpath ▸ hitem)) (path_ne_nil hitem) hf
    have hpath : item.path = item'.path := by
      rw [← huri hitem hf, ← huri hitem' hg]
      exact congrArg Prod.fst hspot
    have hsame : item = item' := path_inj hitem hitem' hpath
    rw [hsame, hg, Option.some.injEq] at hf
    exact hf.symm

def clashContext : PassContext where
  store :=
    (Table.ofList [] [(bytes "/a.graphql", bytes "?"), (bytes "/b.graphql", bytes "!")]).memory
  input := .text []
  outputOpen := true
  cancelled := false
  log := .off
  time := []
  elapsed := .null

def clashTargets : List Bytes := [bytes "a.graphql", bytes "b.graphql"]

def clashSettings : Settings :=
  { Settings.initial with concurrency := 2, sourceName := bytes "schema" }

def clashEvents : List Event := [.start 0, .start 1, .finish 1, .finish 0]

theorem clash_shows :
    ∃ problem listed listed',
      Shows Settings.initial clashContext (bytes "missing" :: clashTargets) (Event.sequential 2)
        problem listed ∧
      Shows Settings.initial clashContext (bytes "missing" :: clashTargets) clashEvents
        problem listed' ∧
      listed.length = 3 ∧ listed = listed' := by
  have hitems : allItems clashContext (bytes "missing" :: clashTargets) =
      [.file (bytes "/a.graphql"), .file (bytes "/b.graphql")] := by decide +kernel
  have hevents : Event.isSchedule 1
      (allItems clashContext (bytes "missing" :: clashTargets)).length (Event.sequential 2) := by
    rw [hitems]
    decide
  have hevents' : Event.isSchedule 2
      (allItems clashContext (bytes "missing" :: clashTargets)).length clashEvents := by
    rw [hitems]
    decide
  obtain ⟨problem, listed, listed', hshows, hshows', -, -, heq⟩ :=
    shows_of_schedules (s := Settings.initial) rfl (by decide)
      (openingFaults_harmless_iff.mp (by decide +kernel))
      (items_harmless_iff.mp (by decide +kernel)) hevents hevents'
  refine ⟨problem, listed, listed', hshows, hshows', ?_, heq rfl ?_⟩
  · rw [hshows.perm.length_eq]
    decide +kernel
  · have hbodies : ∀ path ∈ [bytes "/a.graphql", bytes "/b.graphql"],
        faultOf (clashContext.store.body path) = none := by decide +kernel
    intro path hpath f hf
    have hnone := hbodies path (by simpa [hitems] using hpath)
    rw [hf] at hnone
    nomatch hnone

/-- The failure of a file whose first character, as it is quoted, begins no definition. -/
def clashFault (quoted : Bytes) : Fault :=
  .new ⟨bytes "schema", 0, 1, 1⟩ Code.unexpectedCharacter
    (bytes "Unexpected character " ++ quoted ++ bytes ", expected comment or definition")

def clashLine (quoted : String) : Bytes :=
  bytes "schema:1:1 -- S0002: Unexpected character " ++ bytes quoted ++
    bytes ", expected comment or definition\n"

theorem clash_errors_eq {events : List Event} (told : List Fault)
    (hprogress : Progress.ofSchedule clashSettings clashContext
      (Opening.ofTargets clashContext clashTargets) events =
        ⟨.text [], [], [], ⟨harmless, told⟩, none, []⟩)
    (hsorted : told.Pairwise fun a b => Report.placeLe a b = true) :
    (runWith clashSettings clashContext (fun _ => events) clashTargets).errors =
      told.flatMap fun f => line f.text := by
  have hopening : Opening.ofTargets clashContext clashTargets =
      ⟨[.file (bytes "/a.graphql"), .file (bytes "/b.graphql")], ⟨harmless, []⟩, [], none⟩ := rfl
  have hlisted : Report.sorted ⟨harmless, told⟩ = told := List.mergeSort_of_pairwise hsorted
  rw [runWith, hprogress, hopening]
  change faultLines ⟨harmless, told⟩ = _
  rw [faultLines, hlisted]

/-- Files that go by one name may fail at one offset, and then it is a matter of the schedule which
failure is shown first. -/
theorem clash_errors_ne :
    Settings.load (fun _ => none) 4 [bytes "--source-name=schema", bytes "-j2"] =
      .ok (clashSettings, []) ∧
    clashContext.cancelled = false ∧ clashTargets.count inputTarget ≤ 1 ∧
    (∀ t ∈ clashTargets, ∀ f, itemsOf clashContext t = .error f → f.code ∈ harmless) ∧
    (∀ item ∈ allItems clashContext clashTargets, ∀ f,
      item.body clashContext.store clashContext.input = .error f → f.code ∈ harmless) ∧
    Event.isSchedule clashSettings.concurrency.toNat (allItems clashContext clashTargets).length
      (Event.sequential 2) ∧
    Event.isSchedule clashSettings.concurrency.toNat (allItems clashContext clashTargets).length
      clashEvents ∧
    (runWith clashSettings clashContext (fun _ => Event.sequential 2) clashTargets).errors =
      clashLine "\"?\"" ++ clashLine "\"!\"" ∧
    (runWith clashSettings clashContext (fun _ => clashEvents) clashTargets).errors =
      clashLine "\"!\"" ++ clashLine "\"?\"" ∧
    (runWith clashSettings clashContext (fun _ => Event.sequential 2) clashTargets).errors ≠
      (runWith clashSettings clashContext (fun _ => clashEvents) clashTargets).errors := by
  have hitems : allItems clashContext clashTargets =
      [.file (bytes "/a.graphql"), .file (bytes "/b.graphql")] := by decide +kernel
  have hfirst : (runWith clashSettings clashContext (fun _ => Event.sequential 2)
      clashTargets).errors = _ :=
    clash_errors_eq [clashFault (bytes "\"?\""), clashFault (bytes "\"!\"")] rfl
      (by decide +kernel)
  have hsecond : (runWith clashSettings clashContext (fun _ => clashEvents)
      clashTargets).errors = _ :=
    clash_errors_eq [clashFault (bytes "\"!\""), clashFault (bytes "\"?\"")] rfl
      (by decide +kernel)
  refine ⟨by decide +kernel, rfl, by decide, openingFaults_harmless_iff.mp (by decide +kernel),
    items_harmless_iff.mp (by decide +kernel), by rw [hitems]; decide +kernel,
    by rw [hitems]; decide +kernel, hfirst.trans (by decide +kernel),
    hsecond.trans (by decide +kernel), ?_⟩
  rw [hfirst, hsecond]
  decide +kernel

end Pass

end SchemaDoc
