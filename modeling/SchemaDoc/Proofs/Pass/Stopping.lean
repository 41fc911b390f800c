import SchemaDoc.Proofs.Pass.Attempts
import SchemaDoc.Proofs.Pass.Reporting

/-! # Failures that stop a pass

The first target that cannot be opened for a reason that concerns more than this
target ends the pass before anything is parsed. A file or standard input that
cannot be read for such a reason ends it when the items that were attempted are
finished. Either way nothing is printed, and every fault that was told is shown
once.
-/

namespace SchemaDoc.Pass

variable {s : Settings} {c : PassContext} {targets earlier : List Bytes} {target : Bytes}
  {f : Fault} {events : List Event}

/-- The first target that cannot be opened for a reason that keeps the others from being opened. -/
structure StopsAt (c : PassContext) (targets earlier : List Bytes) (target : Bytes) (f : Fault) :
    Prop where
  targets : ∃ later, targets = earlier ++ target :: later
  earlier : ∀ t ∈ earlier, ∀ g, itemsOf c t = .error g → g.code ∈ harmless
  fails : itemsOf c target = .error f
  fatal : f.code ∉ harmless

theorem exists_stopsAt (h : ∃ t ∈ targets, ∃ f, itemsOf c t = .error f ∧ f.code ∉ harmless) :
    ∃ earlier target f, StopsAt c targets earlier target f := by
  induction targets with
  | nil =>
    obtain ⟨t, ht, -⟩ := h
    nomatch ht
  | cons u targets ih =>
    by_cases hu : ∀ g, itemsOf c u = .error g → g.code ∈ harmless
    · have hrest : ∃ t ∈ targets, ∃ f, itemsOf c t = .error f ∧ f.code ∉ harmless := by
        obtain ⟨t, ht, f, hf, hcode⟩ := h
        rcases List.mem_cons.mp ht with rfl | ht
        · exact absurd (hu f hf) hcode
        · exact ⟨t, ht, f, hf, hcode⟩
      obtain ⟨earlier, target, f, ⟨later, rfl⟩, hearlier, hfails, hfatal⟩ := ih hrest
      exact ⟨u :: earlier, target, f, ⟨later, rfl⟩, List.forall_mem_cons.mpr ⟨hu, hearlier⟩, hfails,
        hfatal⟩
    · simp only [not_forall] at hu
      obtain ⟨f, hf, hcode⟩ := hu
      exact ⟨[], u, f, ⟨targets, rfl⟩, fun t ht => (List.not_mem_nil ht).elim, hf, hcode⟩

theorem StopsAt.unique {earlier' : List Bytes} {target' : Bytes} {f' : Fault}
    (h : StopsAt c targets earlier target f) (h' : StopsAt c targets earlier' target' f') :
    earlier = earlier' ∧ target = target' ∧ f = f' := by
  obtain ⟨⟨later, rfl⟩, hearlier, hfails, hfatal⟩ := h
  obtain ⟨⟨later', htargets⟩, hearlier', hfails', hfatal'⟩ := h'
  rcases List.append_eq_append_iff.mp htargets with ⟨rest, rfl, hrest⟩ | ⟨rest, rfl, hrest⟩
  · cases rest with
    | nil =>
      obtain ⟨rfl, -⟩ := List.cons.inj hrest
      rw [hfails] at hfails'
      exact ⟨(List.append_nil _).symm, rfl, Except.error.inj hfails'⟩
    | cons t rest =>
      obtain ⟨rfl, -⟩ := List.cons.inj hrest
      exact absurd (hearlier' target (by simp) f hfails) hfatal
  · cases rest with
    | nil =>
      obtain ⟨rfl, -⟩ := List.cons.inj hrest
      rw [hfails] at hfails'
      exact ⟨List.append_nil _, rfl, Except.error.inj hfails'⟩
    | cons t rest =>
      obtain ⟨rfl, -⟩ := List.cons.inj hrest
      exact absurd (hearlier target' (by simp) f' hfails') hfatal'

namespace Opening

theorem step_eq_fatal (items : List Item) (told : List Fault) (log : Bytes)
    (hfails : itemsOf c target = .error f) (hfatal : f.code ∉ harmless) :
    step c ⟨items, ⟨harmless, told⟩, log, none⟩ target =
      ⟨items, ⟨harmless, told ++ [f]⟩, log ++ openingLog c [target], some f⟩ := by
  have hinput : target ≠ inputTarget := by
    rintro rfl
    rw [itemsOf, if_pos rfl] at hfails
    cases hfails
  have hlocate : c.store.locate isSchemaFile target = .error f := by
    rw [itemsOf, if_neg hinput] at hfails
    cases hpaths : c.store.locate isSchemaFile target with
    | ok paths =>
      rw [hpaths] at hfails
      cases hfails
    | error g =>
      rw [hpaths] at hfails
      cases hfails
      rfl
  have hisFatal : Report.isFatal ⟨harmless, told⟩ f = true := by
    rw [Report.isFatal, Bool.not_eq_true', ← Bool.not_eq_true, List.contains_iff_mem]
    exact hfatal
  simp [step, hinput, hlocate, hisFatal, Report.add, openingLog]

theorem foldl_step_of_fatal {o : Opening} (h : o.fatal.isSome = true) (targets : List Bytes) :
    targets.foldl (step c) o = o := by
  induction targets with
  | nil => rfl
  | cons t targets ih =>
    have hstep : step c o t = o := by rw [step, if_pos h]
    rw [List.foldl_cons, hstep, ih]

theorem ofTargets_of_stopsAt (h : StopsAt c targets earlier target f) :
    ofTargets c targets = ⟨allItems c earlier, ⟨harmless, openingFaults c earlier ++ [f]⟩,
      openingLog c (earlier ++ [target]), some f⟩ := by
  obtain ⟨later, rfl⟩ := h.targets
  have hlog : openingLog c (earlier ++ [target]) =
      openingLog c earlier ++ openingLog c [target] := by
    rw [openingLog, List.filter_append, List.flatMap_append]
    rfl
  have hearlier : earlier.foldl (step c) start = _ := ofTargets_of_harmless h.earlier
  rw [ofTargets, List.foldl_append, List.foldl_cons, hearlier,
    step_eq_fatal _ _ _ h.fails h.fatal, foldl_step_of_fatal rfl, hlog]

end Opening

/-- A pass that is stopped prints nothing and shows the faults that were told. -/
theorem complete_fault (f : Fault) (log : Bytes) {report : Report} (hne : report.faults ≠ []) :
    complete (.error (.fault f)) log report = ⟨1, [], log ++ faultLines report⟩ := by
  have hstatus : report.faults.isEmpty = false := by simpa using hne
  simp [complete, hstatus]

theorem errorText_none (opened : List Bytes) (parsed : List (Bytes × Document Span))
    (listed : List Fault) :
    errorText c opened parsed none listed =
      openingLog c opened ++ parsedLog c parsed ++ listed.flatMap fun f =>
        f.place.text ++ bytes " -- " ++ f.code ++ bytes ": " ++ f.message ++ bytes "\n" := by
  rw [errorText, Option.map_none, Option.getD_none, List.append_nil]

theorem runWith_of_stopsAt (h : StopsAt c targets earlier target f) (s : Settings)
    (schedule : Nat → List Event) :
    runWith s c schedule targets =
      ⟨1, [], errorText c (earlier ++ [target]) [] none
        (Report.sorted ⟨harmless, openingFaults c earlier ++ [f]⟩)⟩ := by
  have hne : openingFaults c earlier ++ [f] ≠ [] :=
    List.append_ne_nil_of_right_ne_nil _ (List.cons_ne_nil _ _)
  rw [runWith, Opening.ofTargets_of_stopsAt h]
  dsimp only
  rw [complete_fault f _ hne, errorText_none, parsedLog, List.flatMap_nil, List.append_nil]
  rfl

/-- An item that cannot be read for a reason that stops the work ends the pass after the items that
were attempted. -/
theorem runWith_of_stops (hcancelled : c.cancelled = false)
    (hopen : ∀ t ∈ targets, ∀ f, itemsOf c t = .error f → f.code ∈ harmless)
    (hstops : ∃ item ∈ allItems c targets, item.stops c)
    {limit : Nat} (hevents : Event.isSchedule limit (allItems c targets).length events) :
    (∃ f ∈ endedFaults s c (allItems c targets) events, f.code ∉ harmless) ∧
      runWith s c (fun _ => events) targets =
        ⟨1, [], errorText c targets (endedFiles s c (allItems c targets) events) none
          (Report.sorted ⟨harmless,
            openingFaults c targets ++ endedFaults s c (allItems c targets) events⟩)⟩ := by
  have htold := openingFaults_harmless_iff.mpr hopen
  obtain ⟨hend, hrunning⟩ :=
    (Follows.start (s := s) c (allItems c targets) htold).run hcancelled hevents
  obtain ⟨f, hf, hcode, hfailure⟩ := hend.exists_failure hrunning htold hstops
  have hne : openingFaults c targets ++ endedFaults s c (allItems c targets) events ≠ [] :=
    List.ne_nil_of_mem (List.mem_append_right _ hf)
  refine ⟨⟨f, hf, hcode⟩, ?_⟩
  rw [runWith, Opening.ofTargets_of_harmless hopen]
  dsimp only
  rw [Progress.ofSchedule, hfailure, hend.log, hend.report]
  dsimp only
  rw [complete_fault f _ hne, errorText_none]
  rfl

/-- Whatever order its events take, a pass that fails to open a target or to read a file or standard
input for a reason that concerns more than this target or item prints nothing, ends with status 1
and shows every fault that was told, one of that kind among them, each as often as it was told and
sorted by name and offset, on a line of its own with its place, its code and its message. When the
failure is one of reading, the faults are those of the targets and of the items that were attempted.
When it is one of opening, they are those of the targets up to the first that stops the opening.
Then nothing depends on the targets behind it, on the settings, on the schedule or on what files
contain: the pass ends the same in any other context in which the targets up to there lead to the
same files and faults. -/
theorem runWith_of_fatal (hcancelled : c.cancelled = false)
    (hfatal : (∃ t ∈ targets, ∃ f, itemsOf c t = .error f ∧ f.code ∉ harmless) ∨
      ∃ item ∈ allItems c targets, ∃ f, item.body c.store c.input = .error f ∧ f.code ∉ harmless)
    {limit : Nat}
    (hevents : (∀ t ∈ targets, ∀ f, itemsOf c t = .error f → f.code ∈ harmless) →
      Event.isSchedule limit (allItems c targets).length events) :
    ∃ opened parsed reported listed,
      runWith s c (fun _ => events) targets = ⟨1, [], errorText c opened parsed none listed⟩ ∧
      Report.Arranges reported listed ∧ (∃ f ∈ listed, f.code ∉ harmless) ∧
      ((∀ t ∈ targets, ∀ f, itemsOf c t = .error f → f.code ∈ harmless) →
        opened = targets ∧ parsed = endedFiles s c (allItems c targets) events ∧
          reported = openingFaults c targets ++ endedFaults s c (allItems c targets) events) ∧
      ((∃ t ∈ targets, ∃ f, itemsOf c t = .error f ∧ f.code ∉ harmless) →
        ∃ earlier target f, StopsAt c targets earlier target f ∧
          opened = earlier ++ [target] ∧ parsed = [] ∧
          reported = openingFaults c earlier ++ [f] ∧
          ∀ (s' : Settings) (c' : PassContext) (schedule : Nat → List Event) (later : List Bytes),
            c'.log = c.log → c'.time = c.time →
            (∀ t ∈ earlier ++ [target], itemsOf c' t = itemsOf c t) →
            runWith s' c' schedule (earlier ++ target :: later) =
              runWith s c (fun _ => events) targets) := by
  by_cases hstop : ∃ t ∈ targets, ∃ f, itemsOf c t = .error f ∧ f.code ∉ harmless
  · obtain ⟨earlier, target, f, h⟩ := exists_stopsAt hstop
    have harranged := Report.arranges_sorted ⟨harmless, openingFaults c earlier ++ [f]⟩
    have hrun := runWith_of_stopsAt h s fun _ => events
    refine ⟨_, _, _, _, hrun, harranged, ⟨f, ?_, h.fatal⟩, ?_, fun _ =>
      ⟨earlier, target, f, h, rfl, rfl, rfl, ?_⟩⟩
    · exact harranged.perm.mem_iff.mpr (List.mem_append_right _ List.mem_cons_self)
    · intro hopen
      obtain ⟨t, ht, g, hg, hcode⟩ := hstop
      exact absurd (hopen t ht g hg) hcode
    · intro s' c' schedule later hlog htime hsame
      have h' : StopsAt c' (earlier ++ target :: later) earlier target f := by
        refine ⟨⟨later, rfl⟩, fun t ht g hg => ?_, ?_, h.fatal⟩
        · exact h.earlier t ht g (hsame t (List.mem_append_left _ ht) ▸ hg)
        · rw [hsame target (List.mem_append_right _ List.mem_cons_self)]
          exact h.fails
      have hfaults : openingFaults c' earlier = openingFaults c earlier :=
        List.filterMap_congr fun t ht => by rw [hsame t (List.mem_append_left _ ht)]
      have hopened : openingLog c' (earlier ++ [target]) = openingLog c (earlier ++ [target]) := by
        rw [openingLog, openingLog, hlog, htime]
      rw [hrun, runWith_of_stopsAt h', errorText_none, errorText_none, hopened, hfaults]
      rfl
  · have hopen : ∀ t ∈ targets, ∀ f, itemsOf c t = .error f → f.code ∈ harmless := by
      intro t ht f hf
      by_contra hcode
      exact hstop ⟨t, ht, f, hf, hcode⟩
    have hstops : ∃ item ∈ allItems c targets, item.stops c := by
      obtain ⟨item, hitem, hbody⟩ := hfatal.resolve_left hstop
      exact ⟨item, hitem, Item.stops_iff.mpr hbody⟩
    obtain ⟨⟨f, hf, hcode⟩, hrun⟩ :=
      runWith_of_stops (s := s) hcancelled hopen hstops (hevents hopen)
    have harranged := Report.arranges_sorted
      ⟨harmless, openingFaults c targets ++ endedFaults s c (allItems c targets) events⟩
    refine ⟨_, _, _, _, hrun, harranged, ⟨f, ?_, hcode⟩, fun _ => ⟨rfl, rfl, rfl⟩,
      fun h => absurd h hstop⟩
    exact harranged.perm.mem_iff.mpr (List.mem_append_right _ hf)

/-- A file that does not parse, one that must not be read, one that can be, and a directory that
cannot be listed. Standard input cannot be read. -/
def stoppedContext : PassContext where
  store := (Table.ofList [bytes "/locked"]
    [(bytes "/a.graphql", bytes "scalar ?"), (bytes "/b.graphql", bytes "scalar B"),
      (bytes "/c.graphql", bytes "scalar C")]).memory.troubled fun path =>
        if path = bytes "/b.graphql" ∨ path = bytes "/locked" then
          some ⟨none, some .denied, false⟩
        else none
  input := .failing (bytes "input/output error")
  outputOpen := true
  cancelled := false
  log := .off
  time := []
  elapsed := .null

def stoppedTargets : List Bytes :=
  [bytes "missing", bytes "a.graphql", bytes "b.graphql", bytes "c.graphql"]

/-- The second item stops the work while the first one is under way, and the last one is skipped. -/
def stoppedEvents : List Event := [.start 0, .start 1, .finish 1, .start 2, .finish 0, .finish 2]

def deniedFault (path : Bytes) : Fault :=
  (Failure.plain (bytes "open " ++ path ++ bytes ": permission denied")).wrap (.ofUri path)
    Code.permissionDenied

/-- What is told of the targets, the item that is not parsed last. -/
def stoppedFaults : List Fault :=
  [.new ⟨bytes "/a.graphql", 7, 1, 8⟩ Code.expected (bytes "Expected Name but got \"?\""),
    deniedFault (bytes "/b.graphql"),
    (Failure.plain (bytes "open /missing: file does not exist")).wrap (.ofUri (bytes "/missing"))
      Code.fileNotFound]

def unreadFault : Fault :=
  (Failure.plain (bytes "input/output error")).wrapUnknown (.ofUri (bytes "-"))

theorem stopped_runWith :
    runWith Settings.initial stoppedContext (fun _ => stoppedEvents) stoppedTargets =
      ⟨1, [], bytes "/a.graphql:1:8 -- S0001: Expected Name but got \"?\"\n" ++
        bytes "/b.graphql -- M0003: open /b.graphql: permission denied\n" ++
        bytes "/missing -- M0001: open /missing: file does not exist\n"⟩ ∧
    runWith Settings.initial stoppedContext (fun _ => Event.sequential 2)
        [bytes "-", bytes "c.graphql"] =
      ⟨1, [], bytes "- -- M0000: input/output error\n"⟩ ∧
    ∀ s schedule,
      runWith s stoppedContext schedule (bytes "a.graphql" :: bytes "locked" :: stoppedTargets) =
        ⟨1, [], bytes "/locked -- M0003: open /locked: permission denied\n"⟩ := by
  refine ⟨?_, ?_, fun s schedule => ?_⟩
  · have hopen : ∀ t ∈ stoppedTargets, ∀ f, itemsOf stoppedContext t = .error f →
        f.code ∈ harmless := openingFaults_harmless_iff.mp (by decide +kernel)
    have hfatal : ∃ item ∈ allItems stoppedContext stoppedTargets, ∃ f,
        item.body stoppedContext.store stoppedContext.input = .error f ∧ f.code ∉ harmless :=
      ⟨.file (bytes "/b.graphql"), by decide +kernel, deniedFault (bytes "/b.graphql"),
        by decide +kernel, by decide +kernel⟩
    have hevents : Event.isSchedule 2 (allItems stoppedContext stoppedTargets).length
        stoppedEvents := by decide +kernel
    obtain ⟨opened, parsed, reported, listed, hrun, harranged, -, hreading, -⟩ :=
      runWith_of_fatal (s := Settings.initial) rfl (.inr hfatal) fun _ => hevents
    obtain ⟨rfl, rfl, rfl⟩ := hreading hopen
    have hlisted : listed = stoppedFaults := harranged.eq_of_perm (by decide +kernel)
      (by decide +kernel) (by decide +kernel)
    rw [hrun, hlisted]
    decide +kernel
  · have hopen : ∀ t ∈ [bytes "-", bytes "c.graphql"], ∀ f, itemsOf stoppedContext t = .error f →
        f.code ∈ harmless := openingFaults_harmless_iff.mp (by decide +kernel)
    have hfatal : ∃ item ∈ allItems stoppedContext [bytes "-", bytes "c.graphql"], ∃ f,
        item.body stoppedContext.store stoppedContext.input = .error f ∧ f.code ∉ harmless :=
      ⟨.input, by decide +kernel, unreadFault, rfl, by decide +kernel⟩
    have hevents : Event.isSchedule 2
        (allItems stoppedContext [bytes "-", bytes "c.graphql"]).length
        (Event.sequential 2) := by decide +kernel
    obtain ⟨opened, parsed, reported, listed, hrun, harranged, -, hreading, -⟩ :=
      runWith_of_fatal (s := Settings.initial) rfl (.inr hfatal) fun _ => hevents
    obtain ⟨rfl, rfl, rfl⟩ := hreading hopen
    have hlisted : listed = [unreadFault] := harranged.eq_of_perm (by decide +kernel)
      (by decide +kernel) (by decide +kernel)
    rw [hrun, hlisted]
    decide +kernel
  · have hearlier : ∀ t ∈ [bytes "a.graphql"], ∀ f, itemsOf stoppedContext t = .error f →
        f.code ∈ harmless := openingFaults_harmless_iff.mp (by decide +kernel)
    have hlocked : itemsOf stoppedContext (bytes "locked") =
        .error (deniedFault (bytes "/locked")) := by decide +kernel
    have hdenied : (deniedFault (bytes "/locked")).code ∉ harmless := by decide +kernel
    have hfails : ∃ t ∈ bytes "a.graphql" :: bytes "locked" :: stoppedTargets, ∃ f,
        itemsOf stoppedContext t = .error f ∧ f.code ∉ harmless :=
      ⟨bytes "locked", by simp, _, hlocked, hdenied⟩
    have hnever : (∀ t ∈ bytes "a.graphql" :: bytes "locked" :: stoppedTargets, ∀ f,
        itemsOf stoppedContext t = .error f → f.code ∈ harmless) →
        Event.isSchedule 2 (allItems stoppedContext
          (bytes "a.graphql" :: bytes "locked" :: stoppedTargets)).length stoppedEvents := by
      intro hopen
      exact absurd (hopen (bytes "locked") (by simp) _ hlocked) hdenied
    obtain ⟨opened, parsed, reported, listed, hrun, harranged, -, -, hopening⟩ :=
      runWith_of_fatal (s := Settings.initial) rfl (.inl hfails) hnever
    obtain ⟨earlier, target, f, h, rfl, rfl, rfl, hsame⟩ := hopening hfails
    obtain ⟨rfl, rfl, rfl⟩ := h.unique ⟨⟨stoppedTargets, rfl⟩, hearlier, hlocked, hdenied⟩
    have hlisted : listed = [deniedFault (bytes "/locked")] := harranged.eq_of_perm
      (by decide +kernel) (by decide +kernel) (by decide +kernel)
    have hrest := hsame s stoppedContext schedule stoppedTargets rfl rfl fun _ _ => rfl
    rw [hrun, hlisted] at hrest
    exact hrest.trans (by decide +kernel)

end SchemaDoc.Pass
