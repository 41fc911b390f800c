import Mathlib.Data.List.Nodup
import SchemaDoc.Pass.Run

/-! # Schedules do not matter

What becomes of an item depends on the item alone as long as no failure stops
the work and at most one item reads standard input. Along every schedule the
state of a pass is known from the items that are waiting, running and done: the
documents and faults are those of the items that are done, in the order in which
they were finished.
-/

namespace SchemaDoc.Pass

variable {s : Settings} {c : PassContext} {items : List Item} {told : List Fault}
  {waiting running done : List Nat} {p : Progress} {i : Nat} {item : Item}

def faultOf {α : Type} : Except Fault α → Option Fault
  | .ok _ => none
  | .error f => some f

theorem faultOf_eq_some_iff {α : Type} {attempt : Except Fault α} {f : Fault} :
    faultOf attempt = some f ↔ attempt = .error f := by
  cases attempt <;> simp [faultOf]

namespace Item

/-- What starting the item yields while standard input is unread. -/
def reading (c : PassContext) (item : Item) : Reading := .ofBody (item.body c.store c.input)

/-- Only what is read of standard input depends on what is left of it. -/
theorem reading_congr {input input' : Input} (h : item = .input → input = input') :
    item.reading { c with input := input } = item.reading { c with input := input' } := by
  cases item with
  | input => rw [h rfl]
  | file path => rfl

/-- The document of the item, or the fault that keeps it from being one. -/
def outcome (s : Settings) (c : PassContext) (item : Item) : Except Fault (Document Span) :=
  (item.body c.store c.input).bind fun text => (Progress.source s item.path text).parse

def fault? (s : Settings) (c : PassContext) (item : Item) : Option Fault :=
  faultOf (item.outcome s c)

def document? (s : Settings) (c : PassContext) (item : Item) : Option (Document Span) :=
  (item.outcome s c).toOption

/-- Whether the item cannot be read for a reason that stops the work on others. -/
def stops (c : PassContext) (item : Item) : Bool :=
  match item.body c.store c.input with
  | .ok _ => false
  | .error f => !harmless.contains f.code

theorem stops_iff :
    item.stops c = true ↔ ∃ f, item.body c.store c.input = .error f ∧ f.code ∉ harmless := by
  rw [stops]
  cases item.body c.store c.input <;> simp

end Item

theorem Event.isSchedule_sequential {limit : Nat} (hlimit : 0 < limit) (count : Nat) :
    isSchedule limit count (sequential count) = true := by
  rw [isSchedule, sequential]
  induction List.range count with
  | nil => rfl
  | cons i rest ih => simp [complete, hlimit, ih]

theorem code_mem_harmless_of_parse {source : Source} {f : Fault} (h : source.parse = .error f) :
    f.code ∈ harmless := by
  rw [Source.parse] at h
  split at h
  · nomatch h
  · next e _ =>
    cases h
    change e.cause.code ∈ harmless
    cases e.cause <;> simp [Grammar.Cause.code, harmless]

namespace Progress

/-- Starting an item reads it, with what is left of standard input. -/
theorem begin_eq (hcancelled : c.cancelled = false) (hfailure : p.failure = none) (i : Nat)
    (item : Item) :
    p.begin c i item =
      { p with
        input := if item = .input then p.input.used else p.input
        running := (i, item.reading { c with input := p.input }) :: p.running } := by
  unfold begin
  rw [hcancelled, hfailure]
  rfl

theorem mem_running_of_lookup {reading : Reading} (h : p.running.lookup i = some reading) :
    (i, reading) ∈ p.running := by
  obtain ⟨before, behind, hrunning, -⟩ := List.lookup_eq_some_iff.mp h
  rw [hrunning]
  exact List.mem_append_right _ List.mem_cons_self

theorem note_eq {f : Fault} (h : f.code ∈ p.report.harmless) :
    p.note f = { p with report := p.report.add f } := by
  rw [note, Report.isFatal, List.contains_iff_mem.mpr h]
  rfl

def settle (c : PassContext) (p : Progress) (i : Nat) (path : Bytes) :
    Except Fault (Document Span) → Progress
  | .ok d =>
    { p with
      documents := (i, d) :: p.documents
      log := p.log ++ c.log.write c.time (parsedEntry c path d) }
  | .error f => { p with report := p.report.add f }

theorem conclude_eq (hfault : ∀ f, item.outcome s c = .error f → f.code ∈ p.report.harmless) :
    p.conclude s c i item.path (item.reading c) =
      p.settle c i item.path (item.outcome s c) := by
  rw [Item.outcome] at hfault ⊢
  rw [Item.reading]
  cases hbody : item.body c.store c.input with
  | error f =>
    rw [hbody] at hfault
    exact note_eq (hfault f rfl)
  | ok text =>
    rw [hbody] at hfault
    rw [Reading.ofBody, conclude, Except.bind]
    cases hparse : (source s item.path text).parse with
    | ok d => rfl
    | error f => exact note_eq (hfault f hparse)

end Progress

def documentAt (s : Settings) (c : PassContext) (items : List Item) (i : Nat) :
    Option (Nat × Document Span) :=
  ((items.getD i .input).document? s c).map (i, ·)

def faultAt (s : Settings) (c : PassContext) (items : List Item) (i : Nat) : Option Fault :=
  (items.getD i .input).fault? s c

def Item.parsed? (s : Settings) (c : PassContext) (item : Item) : Option (Bytes × Document Span) :=
  (item.document? s c).map (item.path, ·)

def parsedAt (s : Settings) (c : PassContext) (items : List Item) (i : Nat) :
    Option (Bytes × Document Span) :=
  (items.getD i .input).parsed? s c

/-- What the log says about documents that were parsed. -/
def parsedLog (c : PassContext) (files : List (Bytes × Document Span)) : Bytes :=
  files.flatMap fun (path, d) => c.log.write c.time (Progress.parsedEntry c path d)

theorem parsedLog_append (c : PassContext) (xs ys : List (Bytes × Document Span)) :
    parsedLog c (xs ++ ys) = parsedLog c xs ++ parsedLog c ys :=
  List.flatMap_append

/-- The state of a pass in which some items are waiting, running and done, the latest first. -/
structure Tracks (s : Settings) (c : PassContext) (items : List Item) (told : List Fault)
    (waiting running done : List Nat) (p : Progress) : Prop where
  perm : (waiting ++ (running ++ done)).Perm (List.range items.length)
  input : ∀ i ∈ waiting, items[i]? = some .input → p.input = c.input
  running : p.running = running.map fun i => (i, (items.getD i .input).reading c)
  documents : p.documents = done.filterMap (documentAt s c items)
  report : p.report = ⟨harmless, told ++ done.reverse.filterMap (faultAt s c items)⟩
  failure : p.failure = none
  log : p.log = parsedLog c (done.reverse.filterMap (parsedAt s c items))

namespace Tracks

theorem start (c : PassContext) (items : List Item) (told : List Fault) :
    Tracks s c items told (List.range items.length) [] [] (.start c ⟨harmless, told⟩) where
  perm := by simp
  input _ _ _ := rfl
  running := rfl
  documents := rfl
  report := by simp [Progress.start]
  failure := rfl
  log := rfl

theorem getElem?_eq (h : Tracks s c items told waiting running done p)
    (hi : i ∈ waiting ++ (running ++ done)) : items[i]? = some (items.getD i .input) := by
  have hlt : i < items.length := List.mem_range.mp (h.perm.mem_iff.mp hi)
  rw [List.getD_eq_getElem?_getD, List.getElem?_eq_getElem hlt, Option.getD_some]

theorem nodup (h : Tracks s c items told waiting running done p) :
    (waiting ++ (running ++ done)).Nodup :=
  h.perm.nodup_iff.mpr List.nodup_range

theorem begin (hcancelled : c.cancelled = false)
    (hunique : ∀ i j : Nat, items[i]? = some .input → items[j]? = some .input → i = j)
    (h : Tracks s c items told waiting running done p) (hi : i ∈ waiting) :
    Tracks s c items told (waiting.erase i) (i :: running) done (p.step s c items (.start i)) := by
  have hitem := h.getElem?_eq (List.mem_append_left _ hi)
  have hstep : p.step s c items (.start i) = p.begin c i (items.getD i .input) := by
    rw [Progress.step, hitem]
  have hreading : (items.getD i .input).reading { c with input := p.input } =
      (items.getD i .input).reading c :=
    Item.reading_congr fun hinput => h.input i hi (by rw [hitem, hinput])
  rw [hstep, Progress.begin_eq hcancelled h.failure, hreading]
  refine ⟨?_, ?_, ?_, h.documents, h.report, h.failure, h.log⟩
  · calc (waiting.erase i ++ (i :: (running ++ done))).Perm
          (i :: (waiting.erase i ++ (running ++ done))) := List.perm_middle
      _ |>.Perm (waiting ++ (running ++ done)) :=
          (List.perm_cons_erase hi).symm.append_right _
      _ |>.Perm (List.range items.length) := h.perm
  · intro j hj hinput
    have hne : j ≠ i := by
      rintro rfl
      exact (List.Nodup.of_append_left h.nodup).not_mem_erase hj
    have hother : items.getD i .input ≠ .input := by
      intro hi'
      exact hne (hunique j i hinput (by rw [hitem, hi']))
    rw [if_neg hother]
    exact h.input j (List.mem_of_mem_erase hj) hinput
  · rw [h.running, List.map_cons]

theorem finish (hfault : ∀ item ∈ items, ∀ f, item.outcome s c = .error f → f.code ∈ harmless)
    (h : Tracks s c items told waiting running done p) (hi : i ∈ running) :
    Tracks s c items told waiting (running.erase i) (i :: done) (p.step s c items (.finish i)) := by
  have hmem : i ∈ waiting ++ (running ++ done) :=
    List.mem_append_right _ (List.mem_append_left _ hi)
  have hitem := h.getElem?_eq hmem
  have hnodup : running.Nodup := List.Nodup.of_append_left (List.Nodup.of_append_right h.nodup)
  have hlookup : p.running.lookup i = some ((items.getD i .input).reading c) := by
    rw [h.running, List.lookup_graph _ hi]
  have hrest : p.running.filter (·.1 != i) =
      (running.erase i).map fun j => (j, (items.getD j .input).reading c) := by
    rw [h.running, List.filter_map, hnodup.erase_eq_filter]
    rfl
  have hstep : p.step s c items (.finish i) =
      { p with running := p.running.filter (·.1 != i) }.conclude s c i
        (items.getD i .input).path ((items.getD i .input).reading c) := by
    rw [Progress.step, hitem, hlookup]
  have hharmless : ∀ f, (items.getD i .input).outcome s c = .error f →
      f.code ∈ p.report.harmless := by
    rw [h.report]
    exact hfault _ (List.mem_of_getElem? hitem)
  have hconclude :=
    Progress.conclude_eq (p := { p with running := p.running.filter (·.1 != i) }) (i := i) hharmless
  have hperm : (waiting ++ (running.erase i ++ i :: done)).Perm (List.range items.length) := by
    refine List.Perm.trans (List.Perm.append_left waiting ?_) h.perm
    exact List.perm_middle.trans ((List.perm_cons_erase hi).symm.append_right done)
  rw [hstep, hconclude]
  cases houtcome : (items.getD i .input).outcome s c with
  | ok d =>
    have hdocument : documentAt s c items i = some (i, d) := by
      rw [documentAt, Item.document?, houtcome]
      rfl
    have hfault : faultAt s c items i = none := by rw [faultAt, Item.fault?, houtcome, faultOf]
    have hparsed : parsedAt s c items i = some ((items.getD i .input).path, d) := by
      rw [parsedAt, Item.parsed?, Item.document?, houtcome]
      rfl
    refine ⟨hperm, h.input, hrest, ?_, ?_, h.failure, ?_⟩
    · change (i, d) :: p.documents = _
      rw [h.documents, List.filterMap_cons_some hdocument]
    · change p.report = _
      rw [h.report, List.reverse_cons, List.filterMap_append, List.filterMap_cons_none hfault,
        List.filterMap_nil, List.append_nil]
    · change p.log ++ _ = _
      rw [h.log, List.reverse_cons, List.filterMap_append, List.filterMap_cons_some hparsed,
        List.filterMap_nil, parsedLog_append]
      exact congrArg (_ ++ ·) (List.append_nil _).symm
  | error f =>
    have hdocument : documentAt s c items i = none := by
      rw [documentAt, Item.document?, houtcome]
      rfl
    have hfault : faultAt s c items i = some f := by rw [faultAt, Item.fault?, houtcome, faultOf]
    have hparsed : parsedAt s c items i = none := by
      rw [parsedAt, Item.parsed?, Item.document?, houtcome]
      rfl
    refine ⟨hperm, h.input, hrest, ?_, ?_, h.failure, ?_⟩
    · change p.documents = _
      rw [h.documents, List.filterMap_cons_none hdocument]
    · change p.report.add f = _
      rw [h.report, Report.add, List.reverse_cons, List.filterMap_append,
        List.filterMap_cons_some hfault, List.filterMap_nil, List.append_assoc]
    · change p.log = _
      rw [h.log, List.reverse_cons, List.filterMap_append, List.filterMap_cons_none hparsed,
        List.filterMap_nil, List.append_nil]

/-- A schedule that is completed leads from every state to one in which all items are done. -/
theorem run {limit : Nat} {events : List Event} (hcancelled : c.cancelled = false)
    (hunique : ∀ i j : Nat, items[i]? = some .input → items[j]? = some .input → i = j)
    (hfault : ∀ item ∈ items, ∀ f, item.outcome s c = .error f → f.code ∈ harmless)
    (h : Tracks s c items told waiting running done p)
    (hcomplete : Event.complete limit waiting running events = true) :
    ∃ done', Tracks s c items told [] [] done' (events.foldl (Progress.step s c items) p) := by
  induction events generalizing waiting running done p with
  | nil =>
    simp only [Event.complete, Bool.and_eq_true, List.isEmpty_iff] at hcomplete
    obtain ⟨rfl, rfl⟩ := hcomplete
    exact ⟨done, h⟩
  | cons e events ih =>
    cases e with
    | start i =>
      simp only [Event.complete, Bool.and_eq_true, List.contains_iff_mem] at hcomplete
      exact ih (h.begin hcancelled hunique hcomplete.1.1) hcomplete.2
    | finish i =>
      simp only [Event.complete, Bool.and_eq_true, List.contains_iff_mem] at hcomplete
      exact ih (h.finish hfault hcomplete.1) hcomplete.2

theorem lookup_documents {i : Nat} {done : List Nat} (hnodup : done.Nodup) (hi : i ∈ done) :
    (done.filterMap (documentAt s c items)).lookup i = (items.getD i .input).document? s c := by
  have hother (rest : List Nat) (hrest : i ∉ rest) :
      (rest.filterMap (documentAt s c items)).lookup i = none := by
    rw [List.lookup_eq_none_iff]
    intro e he
    obtain ⟨j, hj, hd⟩ := List.mem_filterMap.mp he
    obtain ⟨d, -, rfl⟩ := Option.map_eq_some_iff.mp hd
    simpa using fun hij : i = j => hrest (hij ▸ hj)
  induction done with
  | nil => nomatch hi
  | cons j done ih =>
    obtain ⟨hj, hnodup⟩ := List.nodup_cons.mp hnodup
    by_cases hij : i = j
    · subst hij
      cases hd : (items.getD i .input).document? s c with
      | none =>
        rw [List.filterMap_cons_none (by rw [documentAt, hd, Option.map_none]), hother done hj]
      | some d =>
        rw [List.filterMap_cons_some (by rw [documentAt, hd, Option.map_some]),
          List.lookup_cons_self]
    · have hmem : i ∈ done := (List.mem_cons.mp hi).resolve_left hij
      cases hd : (items.getD j .input).document? s c with
      | none =>
        rw [List.filterMap_cons_none (by rw [documentAt, hd, Option.map_none]), ih hnodup hmem]
      | some d =>
        rw [List.filterMap_cons_some (by rw [documentAt, hd, Option.map_some]), List.lookup_cons,
          beq_false_of_ne hij, ih hnodup hmem]

/-- In the end the results are the documents of all items that have one, in the order of the
items. -/
theorem results_eq (h : Tracks s c items told [] [] done p) :
    p.results items = items.filterMap fun item => (item.document? s c).map (item.path, ·) := by
  have hlookup : ∀ e ∈ items.zipIdx, (p.documents.lookup e.2).map (fun d => (e.1.path, d)) =
      (e.1.document? s c).map (e.1.path, ·) := by
    rintro ⟨item, i⟩ he
    have hitem : items[i]? = some item := List.mk_mem_zipIdx_iff_getElem?.mp he
    have hi : i ∈ done := h.perm.mem_iff.mpr
      (List.mem_range.mpr (List.getElem?_eq_some_iff.mp hitem).1)
    have hnodup : done.Nodup := h.nodup
    rw [h.documents, lookup_documents hnodup hi, List.getD_eq_getElem?_getD, hitem,
      Option.getD_some]
  calc p.results items
      = items.zipIdx.filterMap fun e => (e.1.document? s c).map (e.1.path, ·) :=
        List.filterMap_congr hlookup
    _ = (items.zipIdx.map Prod.fst).filterMap fun item =>
          (item.document? s c).map (item.path, ·) := by rw [List.filterMap_map]; rfl
    _ = items.filterMap fun item => (item.document? s c).map (item.path, ·) := by
        rw [List.zipIdx_map_fst]

/-- In the end every item is done, so that what is gathered from the items that are done is gathered
from all items, in some order. -/
theorem filterMap_perm {β : Type} (h : Tracks s c items told [] [] done p) (g : Item → Option β) :
    (done.reverse.filterMap fun i => g (items.getD i .input)).Perm (items.filterMap g) := by
  have hperm : done.reverse.Perm (List.range items.length) := (List.reverse_perm done).trans h.perm
  have hitems : (List.range items.length).map (items.getD · .input) = items := by
    apply List.ext_getElem
    · simp
    · intro i h₁ h₂
      simp [List.getElem?_eq_getElem h₂]
  have hall : (List.range items.length).filterMap (fun i => g (items.getD i .input)) =
      items.filterMap g := by
    calc (List.range items.length).filterMap (fun i => g (items.getD i .input))
        = ((List.range items.length).map (items.getD · .input)).filterMap g := by
          rw [List.filterMap_map]; rfl
      _ = items.filterMap g := by rw [hitems]
  rw [← hall]
  exact hperm.filterMap _

/-- In the end the faults told are those of the opening and of all items, in some order. -/
theorem faults_perm (h : Tracks s c items told [] [] done p) :
    p.report.faults.Perm (told ++ items.filterMap (Item.fault? s c)) := by
  rw [h.report]
  exact (h.filterMap_perm (Item.fault? s c)).append_left told

end Tracks

end SchemaDoc.Pass
