import Mathlib.Data.List.NodupEquivFin
import SchemaDoc.Proofs.Pass.Descriptions
import SchemaDoc.Proofs.Pass.Scheduling
import SchemaDoc.Proofs.Store.Opening
import SchemaDoc.Store.Memory

/-! # The output and the status of a pass

What a pass prints and how it ends is a matter of its targets, the store and
standard input alone: the texts of all documents in the order of the targets, up
to the first that cannot be written, and a failure when anything failed. No
schedule of the work has a part in it, and as a rule neither has the order in
which the entries of maps are found.
-/

namespace SchemaDoc

namespace Pass

variable {s : Settings} {c : PassContext} {f : OutputFormat} {targets : List Bytes}

def itemsOf (c : PassContext) (target : Bytes) : Except Fault (List Item) :=
  if target = inputTarget then .ok [.input]
  else (c.store.locate isSchemaFile target).map (List.map .file)

/-- The items of all targets in their order; a target that cannot be opened has none. -/
def allItems (c : PassContext) (targets : List Bytes) : List Item :=
  targets.flatMap fun t => (itemsOf c t).toOption.getD []

theorem exists_locate_of_file_mem {path : Bytes} (h : .file path ∈ allItems c targets) :
    ∃ t ∈ targets, ∃ paths, c.store.locate isSchemaFile t = .ok paths ∧ path ∈ paths := by
  obtain ⟨t, ht, h⟩ := List.mem_flatMap.mp h
  rw [itemsOf] at h
  split at h
  · simp [Except.toOption] at h
  · cases hlocate : c.store.locate isSchemaFile t with
    | error f => simp [hlocate, Except.map, Except.toOption] at h
    | ok paths =>
      exact ⟨t, ht, paths, hlocate, by simpa [hlocate, Except.map, Except.toOption] using h⟩

/-- What the log says about targets that are opened. -/
def openingLog (c : PassContext) (targets : List Bytes) : Bytes :=
  (targets.filter (· ≠ inputTarget)).flatMap fun t =>
    c.log.write c.time ⟨.debug, bytes "opening", [(bytes "target", .text t)]⟩

def openingFaults (c : PassContext) (targets : List Bytes) : List Fault :=
  targets.filterMap fun t => faultOf (itemsOf c t)

theorem openingFaults_harmless_iff :
    (∀ f ∈ openingFaults c targets, f.code ∈ harmless) ↔
      ∀ t ∈ targets, ∀ f, itemsOf c t = .error f → f.code ∈ harmless := by
  simp only [openingFaults, List.mem_filterMap, faultOf_eq_some_iff]
  exact ⟨fun h t ht f hf => h f ⟨t, ht, hf⟩, fun h f ⟨t, ht, hf⟩ => h t ht f hf⟩

/-- No item stops the work if whatever keeps items from being read is harmless. -/
theorem items_harmless_iff :
    (∀ item ∈ allItems c targets, item.stops c = false) ↔
      ∀ item ∈ allItems c targets, ∀ f, item.body c.store c.input = .error f →
        f.code ∈ harmless := by
  apply forall₂_congr
  intro item _
  rw [Bool.eq_false_iff, Ne, Item.stops_iff]
  push Not
  rfl

theorem Opening.step_eq (items : List Item) (told : List Fault) (log : Bytes) {target : Bytes}
    (hopen : ∀ f, itemsOf c target = .error f → f.code ∈ harmless) :
    step c ⟨items, ⟨harmless, told⟩, log, none⟩ target =
      ⟨items ++ (itemsOf c target).toOption.getD [],
        ⟨harmless, told ++ (faultOf (itemsOf c target)).toList⟩,
        log ++ openingLog c [target], none⟩ := by
  by_cases hinput : target = inputTarget
  · have hitems : itemsOf c target = .ok [.input] := if_pos hinput
    rw [hitems, faultOf, Option.toList_none, List.append_nil]
    simp [step, hinput, Except.toOption, openingLog]
  · have hitems : itemsOf c target =
        (c.store.locate isSchemaFile target).map (List.map .file) := if_neg hinput
    cases hlocate : c.store.locate isSchemaFile target with
    | ok paths =>
      rw [hlocate, Except.map] at hitems
      rw [hitems, faultOf, Option.toList_none, List.append_nil]
      simp [step, hinput, hlocate, Except.toOption, openingLog]
    | error f =>
      rw [hlocate, Except.map] at hitems
      have hfatal : Report.isFatal ⟨harmless, told⟩ f = false := by
        rw [Report.isFatal, List.contains_iff_mem.mpr (hopen f hitems), Bool.not_true]
      rw [hitems, faultOf, Option.toList_some]
      simp [step, hinput, hlocate, hfatal, Except.toOption, Report.add, openingLog]

theorem Opening.foldl_step_eq (items : List Item) (told : List Fault) (log : Bytes)
    (hopen : ∀ t ∈ targets, ∀ f, itemsOf c t = .error f → f.code ∈ harmless) :
    targets.foldl (step c) ⟨items, ⟨harmless, told⟩, log, none⟩ =
      ⟨items ++ allItems c targets,
        ⟨harmless, told ++ targets.filterMap fun t => faultOf (itemsOf c t)⟩,
        log ++ openingLog c targets, none⟩ := by
  induction targets generalizing items told log with
  | nil => simp [allItems, openingLog]
  | cons t targets ih =>
    have hlog : openingLog c (t :: targets) = openingLog c [t] ++ openingLog c targets := by
      rw [openingLog, ← List.singleton_append, List.filter_append, List.flatMap_append]
      rfl
    rw [List.foldl_cons, step_eq items told log (hopen t List.mem_cons_self),
      ih _ _ _ fun u hu => hopen u (List.mem_cons_of_mem t hu), allItems, allItems,
      List.flatMap_cons, hlog]
    cases hf : faultOf (itemsOf c t) <;> simp [hf]

theorem Opening.ofTargets_of_harmless
    (hopen : ∀ t ∈ targets, ∀ f, itemsOf c t = .error f → f.code ∈ harmless) :
    ofTargets c targets = ⟨allItems c targets, ⟨harmless, openingFaults c targets⟩,
      openingLog c targets, none⟩ :=
  foldl_step_eq [] [] [] hopen

theorem Opening.items_ofTargets (hopen : ∀ t ∈ targets, t ≠ inputTarget →
    ∃ paths, c.store.locate isSchemaFile t = .ok paths) :
    (ofTargets c targets).items = allItems c targets := by
  rw [ofTargets_of_harmless]
  intro t ht f hf
  rw [itemsOf] at hf
  split_ifs at hf with hinput
  obtain ⟨paths, hlocate⟩ := hopen t ht hinput
  rw [hlocate] at hf
  nomatch hf

/-- Only the target for standard input leads to it. -/
theorem count_input (c : PassContext) (targets : List Bytes) :
    (allItems c targets).count .input = targets.count inputTarget := by
  induction targets with
  | nil => rfl
  | cons t targets ih =>
    rw [allItems, List.flatMap_cons, ← allItems, List.count_append, ih, List.count_cons]
    by_cases hinput : t = inputTarget
    · simp [itemsOf, hinput, Except.toOption]
      omega
    · have hnone : List.count Item.input ((itemsOf c t).toOption.getD []) = 0 := by
        rw [List.count_eq_zero, itemsOf, if_neg hinput]
        cases c.store.locate isSchemaFile t <;> simp [Except.map, Except.toOption]
      simp [hnone, hinput]

theorem input_unique (hinput : targets.count inputTarget ≤ 1) (i j : Nat)
    (hi : (allItems c targets)[i]? = some .input) (hj : (allItems c targets)[j]? = some .input) :
    i = j := by
  by_contra hne
  have hdup : List.Duplicate Item.input (allItems c targets) := by
    obtain ⟨hi', hi⟩ := List.getElem?_eq_some_iff.mp hi
    obtain ⟨hj', hj⟩ := List.getElem?_eq_some_iff.mp hj
    rw [List.duplicate_iff_exists_distinct_get]
    rcases Nat.lt_or_gt_of_ne hne with h | h
    · exact ⟨⟨i, hi'⟩, ⟨j, hj'⟩, h, hi.symm, hj.symm⟩
    · exact ⟨⟨j, hj'⟩, ⟨i, hi'⟩, h, hj.symm, hi.symm⟩
  have htwo := List.duplicate_iff_two_le_count.mp hdup
  rw [count_input] at htwo
  omega

/-- The text of a document: its tree and, if asked for, its descriptions. -/
def fileText (s : Settings) (f : OutputFormat) (o : MapOrder) (time : Nat)
    (file : Bytes × Document Span) : Except OutputProblem Bytes :=
  match f.write file.2.tree with
  | .error p => .error p
  | .ok tree =>
    if s.descriptions then
      ((Printed.descriptionFormat f).write
        (.map (o.entries time file.1 (.ofDocument file.2)))).map (tree ++ ·)
    else .ok tree

def fileTexts (s : Settings) (f : OutputFormat) (o : MapOrder)
    (files : List (Bytes × Document Span)) : List (Except OutputProblem Bytes) :=
  files.zipIdx.map fun (file, time) => fileText s f o time file

/-- The texts before the first that cannot be written. -/
def writable {ε : Type} : List (Except ε Bytes) → List Bytes
  | .ok text :: texts => text :: writable texts
  | _ => []

theorem ofTexts_texts (outputOpen : Bool) (o : MapOrder) (time : Nat) (file : Bytes × Document Span)
    (rest : List (Except OutputProblem Bytes)) :
    Printed.ofTexts outputOpen (Printed.texts s f o time file.1 file.2 ++ rest) =
      Printed.ofTexts outputOpen (fileText s f o time file :: rest) := by
  obtain ⟨text, htext, -⟩ := (o.enumerates time file.1 (.ofDocument file.2)).exists_write f
  rw [Printed.texts, fileText, htext]
  cases f.write file.2.tree with
  | error p => rfl
  | ok tree =>
    cases s.descriptions with
    | false => rfl
    | true =>
      cases outputOpen with
      | true => simp [Printed.ofTexts, Except.map]
      | false => cases tree <;> simp [Printed.ofTexts, Except.map]

theorem ofTexts_flatMap (outputOpen : Bool) (o : MapOrder)
    (files : List ((Bytes × Document Span) × Nat)) :
    Printed.ofTexts outputOpen
        (files.flatMap fun ((path, d), time) => Printed.texts s f o time path d) =
      Printed.ofTexts outputOpen (files.map fun (file, time) => fileText s f o time file) := by
  induction files with
  | nil => rfl
  | cons file files ih =>
    rw [List.flatMap_cons, ofTexts_texts outputOpen o file.2 file.1, List.map_cons]
    dsimp only
    cases fileText s f o file.2 file.1 with
    | error p => rfl
    | ok text => rw [Printed.ofTexts, Printed.ofTexts, ih]

theorem ofResults_eq (hformat : OutputFormat.ofName s.output = .ok f) (o : MapOrder)
    (outputOpen : Bool) (files : List (Bytes × Document Span)) :
    Printed.ofResults s o outputOpen files =
      Printed.ofTexts outputOpen (fileTexts s f o files) := by
  rw [Printed.ofResults, hformat]
  exact ofTexts_flatMap outputOpen o files.zipIdx

/-- Whether a text goes out: a closed output takes only what is empty. -/
def Goes (outputOpen : Bool) (text : Except OutputProblem Bytes) : Prop :=
  ∃ t, text = .ok t ∧ (outputOpen = true ∨ t = [])

theorem ofTexts_eq (outputOpen : Bool) (texts : List (Except OutputProblem Bytes)) :
    (Printed.ofTexts outputOpen texts).text =
        (if outputOpen then (writable texts).flatten else []) ∧
      ((Printed.ofTexts outputOpen texts).problem = none ↔
        ∀ text ∈ texts, Goes outputOpen text) := by
  induction texts with
  | nil => cases outputOpen <;> simp [Printed.ofTexts, writable]
  | cons text texts ih =>
    obtain ⟨hih, hnone⟩ := ih
    rw [List.forall_mem_cons]
    cases text with
    | error p => simp [Printed.ofTexts, writable, Goes]
    | ok text =>
      cases outputOpen with
      | true => simp_all [Printed.ofTexts, writable, Goes]
      | false => cases text <;> simp_all [Printed.ofTexts, Goes]

/-- Whether a text goes out is no matter of the order of entries. -/
theorem goes_fileText_iff (outputOpen : Bool) (o o' : MapOrder) (time : Nat)
    (file : Bytes × Document Span) :
    Goes outputOpen (fileText s f o time file) ↔ Goes outputOpen (fileText s f o' time file) := by
  obtain ⟨text, htext, hne⟩ := (o.enumerates time file.1 (.ofDocument file.2)).exists_write f
  obtain ⟨text', htext', hne'⟩ := (o'.enumerates time file.1 (.ofDocument file.2)).exists_write f
  rw [fileText, fileText, htext, htext']
  cases f.write file.2.tree with
  | error p => rfl
  | ok tree => cases s.descriptions <;> simp [Goes, Except.map, hne, hne']

theorem goes_fileTexts_iff (outputOpen : Bool) (o o' : MapOrder)
    (files : List (Bytes × Document Span)) :
    (∀ text ∈ fileTexts s f o files, Goes outputOpen text) ↔
      ∀ text ∈ fileTexts s f o' files, Goes outputOpen text := by
  simp only [fileTexts, List.forall_mem_map]
  exact forall₂_congr fun file _ => goes_fileText_iff outputOpen o o' file.2 file.1

/-- Nothing that is printed of files shows the order in which the entries of maps are found: no
descriptions are printed, or not as YAML, or the digit runs of all keys fit into a word. -/
def ShowsNoOrder (s : Settings) (files : List (Bytes × Document Span)) : Prop :=
  s.descriptions = true → OutputFormat.ofName s.output = .ok .yaml →
    ∀ file ∈ files, ∀ e ∈ Descriptions.ofDocument file.2, Yaml.FitsWord e.1

theorem ShowsNoOrder.mono {fs gs : List (Bytes × Document Span)} (h : ShowsNoOrder s gs)
    (hsub : fs ⊆ gs) : ShowsNoOrder s fs :=
  fun hdescriptions hformat file hfile => h hdescriptions hformat file (hsub hfile)

theorem descriptionFormat_eq_yaml_iff : Printed.descriptionFormat f = .yaml ↔ f = .yaml := by
  cases f <;> simp [Printed.descriptionFormat]

theorem ShowsNoOrder.fileTexts_eq {files : List (Bytes × Document Span)}
    (h : ShowsNoOrder s files) (hformat : OutputFormat.ofName s.output = .ok f) (o o' : MapOrder) :
    fileTexts s f o files = fileTexts s f o' files := by
  apply List.map_congr_left
  rintro ⟨file, time⟩ hmem
  have hfile := List.fst_mem_of_mem_zipIdx hmem
  dsimp only
  rw [fileText, fileText]
  cases hdescriptions : s.descriptions with
  | false => rfl
  | true =>
    rw [(o.enumerates time file.1 (.ofDocument file.2)).write_eq (o'.enumerates time file.1 _)]
    intro hf e he
    exact h hdescriptions (descriptionFormat_eq_yaml_iff.mp hf ▸ hformat) file hfile e he

/-- The parsed documents of the targets with their paths. -/
def files (s : Settings) (c : PassContext) (targets : List Bytes) : List (Bytes × Document Span) :=
  (allItems c targets).filterMap fun item => (item.document? s c).map (item.path, ·)

/-- Settings that were loaded name a format that there is. -/
theorem exists_format_of_load {environment : Bytes → Option Bytes} {processors : Nat}
    {arguments rest : List Bytes}
    (h : Settings.load environment processors arguments = .ok (s, rest)) :
    ∃ f, OutputFormat.ofName s.output = .ok f := by
  rw [Settings.load] at h
  split at h
  · nomatch h
  split at h
  · nomatch h
  · next s' targets _ =>
    split at h
    · nomatch h
    · next f hformat =>
      split at h
      · nomatch h
      · cases h
        refine ⟨f, ?_⟩
        rw [Settings.limited]
        split <;> exact hformat

theorem code_mem_harmless_of_outcome {item : Item}
    (hread : ∀ f, item.body c.store c.input = .error f → f.code ∈ harmless) {f : Fault}
    (h : item.outcome s c = .error f) : f.code ∈ harmless := by
  rw [Item.outcome] at h
  cases hbody : item.body c.store c.input with
  | ok text =>
    rw [hbody] at h
    exact code_mem_harmless_of_parse h
  | error g =>
    rw [hbody] at h
    cases h
    exact hread f hbody

theorem filterMap_faultOf_eq_nil_iff {α β : Type} {attempt : α → Except Fault β} {as : List α} :
    as.filterMap (fun a => faultOf (attempt a)) = [] ↔ ∀ a ∈ as, ∃ b, attempt a = .ok b := by
  rw [List.filterMap_eq_nil_iff]
  apply forall₂_congr
  intro a _
  cases attempt a <;> simp [faultOf]

/-- A pass that no failure stops ends with the documents of all items, whatever order its events
take. -/
theorem exists_runWith_eq (hcancelled : c.cancelled = false)
    (hinput : targets.count inputTarget ≤ 1)
    (hopen : ∀ t ∈ targets, ∀ f, itemsOf c t = .error f → f.code ∈ harmless)
    (hread : ∀ item ∈ allItems c targets, ∀ f, item.body c.store c.input = .error f →
      f.code ∈ harmless)
    {limit : Nat} {events : List Event}
    (hevents : Event.isSchedule limit (allItems c targets).length events) :
    ∃ done p, Tracks s c (allItems c targets) (openingFaults c targets) [] [] done p ∧
      runWith s c (fun _ => events) targets =
        complete (.ok (.ofResults s c.order c.outputOpen (files s c targets)))
          (openingLog c targets ++ p.log) p.report := by
  have hfault : ∀ item ∈ allItems c targets, ∀ f, item.outcome s c = .error f →
      f.code ∈ harmless := fun item hitem f => code_mem_harmless_of_outcome (hread item hitem)
  have hopening := Opening.ofTargets_of_harmless hopen
  obtain ⟨done, hdone⟩ := (Tracks.start c (allItems c targets) (openingFaults c targets)).run
    hcancelled (input_unique hinput) hfault hevents
  refine ⟨done, _, hdone, ?_⟩
  rw [runWith, hopening]
  simp only [Progress.ofSchedule, hdone.failure, hdone.results_eq, files]

theorem complete_ok (printed : Printed) (log : Bytes) (report : Report) :
    (complete (.ok printed) log report).output = printed.text ∧
      ((complete (.ok printed) log report).status = 0 ↔
        printed.problem = none ∧ report.faults = []) ∧
      (complete (.ok printed) log report).status ≤ 1 := by
  refine ⟨rfl, ?_, ?_⟩
  · cases hproblem : printed.problem <;> simp [complete, hproblem, line]
  · rw [complete]
    dsimp only
    split <;> decide

/-- The order of the entries of maps is a matter of printing alone. -/
theorem output_eq (o : MapOrder) (hcancelled : c.cancelled = false)
    (hinput : targets.count inputTarget ≤ 1)
    (hopen : ∀ t ∈ targets, ∀ f, itemsOf c t = .error f → f.code ∈ harmless)
    (hread : ∀ item ∈ allItems c targets, ∀ f, item.body c.store c.input = .error f →
      f.code ∈ harmless)
    {limit : Nat} {events : List Event}
    (hevents : Event.isSchedule limit (allItems c targets).length events) :
    (runWith s { c with order := o } (fun _ => events) targets).output =
      (Printed.ofResults s o c.outputOpen (files s c targets)).text := by
  obtain ⟨_, _, _, hrun⟩ := exists_runWith_eq (s := s) (c := { c with order := o }) hcancelled
    hinput hopen hread hevents
  rw [hrun]
  rfl

theorem status_eq_zero_iff (hformat : OutputFormat.ofName s.output = .ok f)
    (hcancelled : c.cancelled = false) (hinput : targets.count inputTarget ≤ 1)
    (hopen : ∀ t ∈ targets, ∀ f, itemsOf c t = .error f → f.code ∈ harmless)
    (hread : ∀ item ∈ allItems c targets, ∀ f, item.body c.store c.input = .error f →
      f.code ∈ harmless)
    {limit : Nat} {events : List Event}
    (hevents : Event.isSchedule limit (allItems c targets).length events) :
    ((runWith s c (fun _ => events) targets).status = 0 ↔
      (∀ t ∈ targets, ∃ items, itemsOf c t = .ok items) ∧
      (∀ item ∈ allItems c targets, ∃ d, item.outcome s c = .ok d) ∧
      ∀ text ∈ fileTexts s f c.order (files s c targets), Goes c.outputOpen text) ∧
    (runWith s c (fun _ => events) targets).status ≤ 1 := by
  obtain ⟨done, p, hdone, hrun⟩ := exists_runWith_eq (s := s) hcancelled hinput hopen hread hevents
  obtain ⟨-, hstatus, hle⟩ := complete_ok
    (Printed.ofResults s c.order c.outputOpen (files s c targets))
    (openingLog c targets ++ p.log) p.report
  rw [hrun]
  refine ⟨?_, hle⟩
  have hopened : openingFaults c targets = [] ↔ ∀ t ∈ targets, ∃ items, itemsOf c t = .ok items :=
    filterMap_faultOf_eq_nil_iff
  have hparsed : (allItems c targets).filterMap (Item.fault? s c) = [] ↔
      ∀ item ∈ allItems c targets, ∃ d, item.outcome s c = .ok d := filterMap_faultOf_eq_nil_iff
  have hfaults : p.report.faults = [] ↔ openingFaults c targets = [] ∧
      (allItems c targets).filterMap (Item.fault? s c) = [] := by
    rw [← List.length_eq_zero_iff, hdone.faults_perm.length_eq, List.length_eq_zero_iff,
      List.append_eq_nil_iff]
  rw [hstatus, hfaults, hopened, hparsed, ofResults_eq hformat, (ofTexts_eq _ _).2]
  tauto

/-- Whatever order its events take, a pass over targets of which at most one is standard input, and
whose failures all are of the kinds that concern a single file, prints the texts of the documents
that parse in the order of the targets, up to the first that cannot be written. It ends well just
when every target was opened, every item parsed and every text printed. So another schedule changes
nothing. Another order of the entries of maps does not change how the pass ends, and it changes
nothing that is printed unless the texts show that order. -/
theorem runWith_eq {environment : Bytes → Option Bytes} {processors : Nat}
    {arguments rest : List Bytes}
    (hload : Settings.load environment processors arguments = .ok (s, rest))
    (hcancelled : c.cancelled = false) (hinput : targets.count inputTarget ≤ 1)
    (hopen : ∀ t ∈ targets, ∀ f, itemsOf c t = .error f → f.code ∈ harmless)
    (hread : ∀ item ∈ allItems c targets, ∀ f, item.body c.store c.input = .error f →
      f.code ∈ harmless)
    {events : List Event}
    (hevents : Event.isSchedule s.concurrency.toNat (allItems c targets).length events = true) :
    (∀ t paths, c.store.locate isSchemaFile t = .ok paths ↔
      c.store.StandsFor isSchemaFile t paths) ∧
    ∃ f, OutputFormat.ofName s.output = .ok f ∧
      (runWith s c (fun _ => events) targets).output =
        (if c.outputOpen then (writable (fileTexts s f c.order (files s c targets))).flatten
        else []) ∧
      ((runWith s c (fun _ => events) targets).status = 0 ↔
        (∀ t ∈ targets, ∃ items, itemsOf c t = .ok items) ∧
        (∀ item ∈ allItems c targets, ∃ d, item.outcome s c = .ok d) ∧
        ∀ text ∈ fileTexts s f c.order (files s c targets), Goes c.outputOpen text) ∧
      (runWith s c (fun _ => events) targets).status ≤ 1 ∧
      ∀ (o : MapOrder) (events' : List Event),
        Event.isSchedule s.concurrency.toNat (allItems c targets).length events' = true →
        (runWith s { c with order := o } (fun _ => events') targets).status =
          (runWith s c (fun _ => events) targets).status ∧
        (o = c.order ∨ ShowsNoOrder s (files s c targets) →
          (runWith s { c with order := o } (fun _ => events') targets).output =
            (runWith s c (fun _ => events) targets).output) := by
  refine ⟨fun t paths => Store.locate_eq_ok_iff, ?_⟩
  obtain ⟨f, hformat⟩ := exists_format_of_load hload
  have houtput := output_eq (s := s) c.order hcancelled hinput hopen hread hevents
  rw [ofResults_eq hformat] at houtput
  obtain ⟨hstatus, hle⟩ := status_eq_zero_iff hformat hcancelled hinput hopen hread hevents
  refine ⟨f, hformat, houtput.trans (ofTexts_eq _ _).1, hstatus, hle,
    fun o events' hevents' => ⟨?_, fun ho => ?_⟩⟩
  · obtain ⟨hstatus', hle'⟩ := status_eq_zero_iff (c := { c with order := o }) hformat hcancelled
      hinput hopen hread hevents'
    have hsame := hstatus'.trans
      ((and_congr_right' (and_congr_right' (goes_fileTexts_iff _ o c.order _))).trans hstatus.symm)
    omega
  · have htexts : fileTexts s f o (files s c targets) =
        fileTexts s f c.order (files s c targets) := by
      rcases ho with rfl | hshows
      · rfl
      · exact hshows.fileTexts_eq hformat o c.order
    rw [output_eq (s := s) o hcancelled hinput hopen hread hevents', ofResults_eq hformat, htexts]
    exact houtput.symm

/-- A directory with a text that does not parse and one that does, standard input, and a target that
is missing. -/
def batchTargets : List Bytes := [bytes "d", bytes "-", bytes "missing"]

def batchContext : PassContext where
  store := (Table.ofList []
    [(bytes "/d/b.graphql", bytes "# b\nscalar B"), (bytes "/d/a.gql", bytes "scalar ?"),
      (bytes "/d/notes.txt", [])]).memory
  input := .text (bytes "scalar C")
  outputOpen := true
  cancelled := false
  log := .off
  time := []
  elapsed := .null

def batchArguments : List Bytes := [bytes "--descriptions", bytes "--output=yaml"]

def batchSettings : Settings :=
  { Settings.initial with output := bytes "yaml", descriptions := true, concurrency := 2 }

/-- Two items at a time, the last one of the first two finished first. -/
def batchEvents : List Event :=
  [.start 1, .start 0, .finish 0, .start 2, .finish 2, .finish 1]

/-- The trees and descriptions of the two documents that parse. -/
def batchOutput : Bytes :=
  bytes "definitions:\n    - kind: Comment\n      loc:\n        end: 3\n        start: 0\n" ++
  bytes "      value: '# b'\n" ++
  bytes "    - kind: ScalarTypeDefinition\n      loc:\n        end: 12\n        start: 4\n" ++
  bytes "      name:\n        kind: Name\n        loc:\n            end: 12\n" ++
  bytes "            start: 11\n        value: B\n" ++
  bytes "kind: Document\nloc:\n    end: 12\n    start: 0\n" ++
  bytes "descriptions:\n    B: b\nfile: /d/b.graphql\n" ++
  bytes "definitions:\n    - kind: ScalarTypeDefinition\n      loc:\n        end: 8\n" ++
  bytes "        start: 0\n      name:\n        kind: Name\n        loc:\n            end: 8\n" ++
  bytes "            start: 7\n        value: C\n" ++
  bytes "kind: Document\nloc:\n    end: 8\n    start: 0\n" ++
  bytes "descriptions: \x7b\x7d\nfile: '-'\n"

theorem batchTargets_runWith :
    Settings.load (fun _ => none) 2 batchArguments = .ok (batchSettings, []) ∧
    Event.isSchedule 2 3 batchEvents = true ∧
    ∀ o : MapOrder,
      (runWith batchSettings { batchContext with order := o } (fun _ => batchEvents)
        batchTargets).output = batchOutput ∧
      (runWith batchSettings { batchContext with order := o } (fun _ => batchEvents)
        batchTargets).status = 1 := by
  have hload : Settings.load (fun _ => none) 2 batchArguments = .ok (batchSettings, []) := by
    decide +kernel
  have hlisted : batchContext.store.StandsFor isSchemaFile (bytes "d")
      ([bytes "a.gql", bytes "b.graphql"].map (Path.below (Store.resolve (bytes "d")))) := by
    have hentries : batchContext.store.entries (Store.resolve (bytes "d")) =
        .ok [(bytes "b.graphql", .file), (bytes "a.gql", .file), (bytes "notes.txt", .file)] := by
      decide +kernel
    exact .directory (by decide +kernel) hentries (by decide +kernel) (by decide +kernel)
      (List.cons_ne_nil _ _)
  have hdirectory : itemsOf batchContext (bytes "d") =
      .ok [.file (bytes "/d/a.gql"), .file (bytes "/d/b.graphql")] := by
    rw [itemsOf, if_neg (by decide), Store.locate_eq_ok_iff.mpr hlisted]
    decide +kernel
  have hinput : itemsOf batchContext (bytes "-") = .ok [.input] := rfl
  obtain ⟨g, hmissing, hcode⟩ : ∃ g, itemsOf batchContext (bytes "missing") = .error g ∧
      g.code ∈ harmless := ⟨_, rfl, by decide +kernel⟩
  have hitems : allItems batchContext batchTargets =
      [.file (bytes "/d/a.gql"), .file (bytes "/d/b.graphql"), .input] := by
    simp [allItems, batchTargets, hdirectory, hinput, hmissing, Except.toOption]
  have hopen : ∀ t ∈ batchTargets, ∀ f, itemsOf batchContext t = .error f → f.code ∈ harmless := by
    simp [batchTargets, hdirectory, hinput, hmissing, hcode]
  have hstops : ∀ item ∈ allItems batchContext batchTargets, item.stops batchContext = false := by
    rw [hitems]
    decide +kernel
  have hevents : Event.isSchedule 2 (allItems batchContext batchTargets).length batchEvents := by
    rw [hitems]
    decide
  obtain ⟨-, f, hformat, houtput, hstatus, hle, hsame⟩ :=
    runWith_eq hload rfl (by decide) hopen (items_harmless_iff.mp hstops) hevents
  obtain rfl : f = .yaml := by
    cases hformat
    rfl
  have htexts : (writable (fileTexts batchSettings .yaml .listed
      (files batchSettings batchContext batchTargets))).flatten = batchOutput := by
    rw [files, hitems]
    decide +kernel
  have hshort : ∀ file ∈ files batchSettings batchContext batchTargets,
      ∀ e ∈ Descriptions.ofDocument file.2, e.1.length ≤ 18 := by
    rw [files, hitems]
    decide +kernel
  have hfailed : (runWith batchSettings batchContext (fun _ => batchEvents) batchTargets).status ≠
      0 := by
    rw [Ne, hstatus]
    rintro ⟨-, hparsed, -⟩
    obtain ⟨d, hd⟩ := hparsed (.file (bytes "/d/a.gql")) (by simp [hitems])
    have hnone : Item.document? batchSettings batchContext (.file (bytes "/d/a.gql")) = none := by
      decide +kernel
    simp [Item.document?, hd, Except.toOption] at hnone
  refine ⟨hload, by decide, fun o => ?_⟩
  obtain ⟨hstatus', houtput'⟩ := hsame o batchEvents hevents
  have hunordered := houtput' <| .inr fun _ _ file hfile e he =>
    Yaml.fitsWord_of_length_le (hshort file hfile e he)
  exact ⟨hunordered.trans (houtput.trans htexts), hstatus'.trans (by omega)⟩

end Pass

end SchemaDoc
