import Mathlib.Data.List.TakeWhile
import SchemaDoc.Proofs.Pass.Scheduling

/-! # Work that failures may stop

When a file cannot be read for a reason that concerns more than this file, items
that have not been started are skipped from the moment at which the work on that
file ends. Items under way are finished, and what they fail with is told as
well. Along every schedule it is known which items are attempted, what is read
of them, which faults have been told and which of them stopped the work.
-/

namespace SchemaDoc.Pass

variable {s : Settings} {c : PassContext} {items : List Item} {told : List Fault} {p : Progress}
  {i j : Nat} {reading : Reading} {past events : List Event} {waiting attempts : List Nat}

namespace Reading

/-- The document or fault that comes of what was read, if anything was. -/
def outcome? (s : Settings) (path : Bytes) : Reading → Option (Except Fault (Document Span))
  | .cancelled => none
  | .failed f => some (.error f)
  | .body text => some (Progress.source s path text).parse

def fault? (s : Settings) (path : Bytes) (reading : Reading) : Option Fault :=
  (reading.outcome? s path).bind faultOf

def file? (s : Settings) (path : Bytes) (reading : Reading) : Option (Bytes × Document Span) :=
  ((reading.outcome? s path).bind Except.toOption).map (path, ·)

/-- The failure that stops the work when it ends with what was read. -/
def failure? (s : Settings) (path : Bytes) (reading : Reading) : Option Failure :=
  if reading = .cancelled then some Progress.cancellation
  else ((reading.fault? s path).filter (·.code ∉ harmless)).map .fault

end Reading

theorem Item.reading_ne_cancelled (c : PassContext) (item : Item) :
    item.reading c ≠ .cancelled := by
  rw [reading]
  cases item.body c.store c.input <;> simp [Reading.ofBody]

/-- Only reading can fail for a reason that stops the work. -/
theorem Item.isSome_failure?_reading (s : Settings) (c : PassContext) (item : Item)
    (path : Bytes) : ((item.reading c).failure? s path).isSome = item.stops c := by
  rw [reading, stops]
  cases item.body c.store c.input with
  | ok text =>
    rw [Reading.ofBody, Reading.failure?, if_neg (by simp), Reading.fault?, Reading.outcome?,
      Option.bind_some]
    cases hparse : (Progress.source s path text).parse with
    | ok d => rfl
    | error f => simp [faultOf, code_mem_harmless_of_parse hparse]
  | error f =>
    dsimp only
    rw [Reading.ofBody, Reading.failure?, if_neg (by simp), Reading.fault?, Reading.outcome?,
      Option.bind_some, faultOf]
    by_cases hf : f.code ∈ harmless <;> simp [Option.filter, hf]

/-- Whether an item stops the work is no matter of what was read before. -/
theorem Item.stops_used (c : PassContext) (item : Item) :
    item.stops { c with input := c.input.used } = item.stops c := by
  cases item with
  | file path => rfl
  | input =>
    rw [stops, stops]
    cases c.input <;> rfl

namespace Progress

/-- Once the work is stopped, what is started is skipped. -/
theorem begin_of_failure (hfailure : p.failure.isSome = true) (i : Nat) (item : Item) :
    p.begin c i item = { p with running := (i, .cancelled) :: p.running } := by
  unfold begin
  rw [hfailure, Bool.or_true, if_pos rfl]

section

variable (p : Progress) (i : Nat) (path : Bytes) (reading : Reading)

theorem conclude_eq_outcome :
    p.conclude s c i path reading = match reading.outcome? s path with
      | none => p.fail cancellation
      | some (.error f) => p.note f
      | some (.ok d) =>
        { p with
          documents := (i, d) :: p.documents
          log := p.log ++ c.log.write c.time (parsedEntry c path d) } := by
  cases reading with
  | cancelled => rfl
  | failed f => rfl
  | body text =>
    rw [conclude, Reading.outcome?]
    cases (source s path text).parse <;> rfl

theorem note_report (f : Fault) : (p.note f).report = p.report.add f := by
  rw [note]
  split <;> rfl

theorem note_failure (f : Fault) (hharmless : p.report.harmless = harmless) :
    (p.note f).failure = p.failure.or (((some f).filter (·.code ∉ harmless)).map .fault) := by
  rw [note, Report.isFatal, hharmless]
  by_cases hf : f.code ∈ harmless
  · simp [hf, Option.filter]
  · simp [hf, Option.filter, fail]

@[simp] theorem conclude_running :
    (p.conclude s c i path reading).running = p.running := by
  rw [conclude_eq_outcome]
  split
  · rfl
  · rw [note]
    split <;> rfl
  · rfl

@[simp] theorem conclude_input :
    (p.conclude s c i path reading).input = p.input := by
  rw [conclude_eq_outcome]
  split
  · rfl
  · rw [note]
    split <;> rfl
  · rfl

theorem conclude_report :
    (p.conclude s c i path reading).report =
      ⟨p.report.harmless, p.report.faults ++ (reading.fault? s path).toList⟩ := by
  rw [conclude_eq_outcome, Reading.fault?]
  split
  · next h => simp [h, fail]
  · next f h => simp [h, note_report, Report.add, faultOf]
  · next d h => simp [h, faultOf]

theorem conclude_log :
    (p.conclude s c i path reading).log =
      p.log ++ parsedLog c (reading.file? s path).toList := by
  rw [conclude_eq_outcome, Reading.file?]
  split
  · next h => simp [h, fail, parsedLog]
  · next f h =>
    rw [note]
    split <;> simp [h, fail, parsedLog, Except.toOption]
  · next d h => simp [h, parsedLog, Except.toOption]

theorem conclude_failure (hharmless : p.report.harmless = harmless) :
    (p.conclude s c i path reading).failure = p.failure.or (reading.failure? s path) := by
  rw [conclude_eq_outcome, Reading.failure?, Reading.fault?]
  cases reading with
  | cancelled => rfl
  | failed f => exact note_failure p f hharmless
  | body text =>
    rw [Reading.outcome?, if_neg (by simp), Option.bind_some]
    cases (source s path text).parse with
    | ok d => simp [faultOf]
    | error f => exact note_failure p f hharmless

end

/-- Finishing an item concludes it with what was read of it. -/
theorem step_finish_eq {item : Item} (hitem : items[i]? = some item)
    (hlookup : p.running.lookup i = some reading) :
    p.step s c items (.finish i) =
      { p with running := p.running.filter (·.1 != i) }.conclude s c i item.path reading := by
  rw [step, hitem, hlookup]

end Progress

namespace Event

def started? : Event → Option Nat
  | .start i => some i
  | .finish _ => none

def finished? : Event → Option Nat
  | .start _ => none
  | .finish i => some i

def halts (c : PassContext) (items : List Item) : Event → Bool
  | .start _ => false
  | .finish i => (items.getD i .input).stops c

/-- The items that are started before the work is stopped. -/
def attempted (c : PassContext) (items : List Item) (events : List Event) : List Nat :=
  (events.takeWhile fun e => !e.halts c items).filterMap started?

theorem mem_started_of_attempted (h : i ∈ attempted c items past) :
    i ∈ past.filterMap started? := by
  obtain ⟨e, he, hi⟩ := List.mem_filterMap.mp h
  exact List.mem_filterMap.mpr ⟨e, (List.takeWhile_prefix _).mem he, hi⟩

theorem attempted_eq (h : ¬∃ e ∈ past, e.halts c items) :
    attempted c items past = past.filterMap started? := by
  rw [attempted, List.takeWhile_eq_self_iff.mpr]
  intro e he
  simpa using fun hhalts => h ⟨e, he, hhalts⟩

theorem attempted_append (h : ∃ e ∈ past, e.halts c items) (events : List Event) :
    attempted c items (past ++ events) = attempted c items past := by
  rw [attempted, List.takeWhile_append, if_neg, attempted]
  intro hlength
  obtain ⟨e, he, hhalts⟩ := h
  have hself := (List.takeWhile_prefix fun e => !halts c items e).eq_of_length hlength
  have hlive := List.takeWhile_eq_self_iff.mp hself e he
  rw [hhalts] at hlive
  nomatch hlive

theorem attempted_finish (past : List Event) (i : Nat) :
    attempted c items (past ++ [.finish i]) = attempted c items past := by
  by_cases h : ∃ e ∈ past, e.halts c items
  · exact attempted_append h _
  · rw [attempted_eq h, attempted, List.takeWhile_append_of_pos, List.filterMap_append]
    · cases hhalts : halts c items (.finish i) <;> simp [hhalts, started?]
    · intro e he
      simpa using fun hhalts => h ⟨e, he, hhalts⟩

theorem attempted_start (h : ¬∃ e ∈ past, e.halts c items) (i : Nat) :
    attempted c items (past ++ [.start i]) = attempted c items past ++ [i] := by
  have hnone : ¬∃ e ∈ past ++ [.start i], e.halts c items := by
    simpa [halts] using h
  rw [attempted_eq hnone, attempted_eq h, List.filterMap_append]
  rfl

end Event

/-- The first of the attempts that reads standard input. -/
def reader? (items : List Item) (attempts : List Nat) : Option Nat :=
  attempts.find? fun i => items.getD i .input = .input

/-- What is left of standard input after some attempts: the first one to read it uses it up. -/
def leftover (c : PassContext) (items : List Item) (attempts : List Nat) : Input :=
  if reader? items attempts = none then c.input else c.input.used

theorem reader?_append (attempts : List Nat) (i : Nat) :
    reader? items (attempts ++ [i]) =
      (reader? items attempts).or (if items.getD i .input = .input then some i else none) := by
  rw [reader?, List.find?_append, reader?, List.find?_singleton]
  simp only [decide_eq_true_eq]

theorem leftover_append (attempts : List Nat) (i : Nat) :
    leftover c items (attempts ++ [i]) =
      if items.getD i .input = .input then (leftover c items attempts).used
      else leftover c items attempts := by
  have hused : c.input.used.used = c.input.used := by cases c.input <;> rfl
  rw [leftover, leftover, reader?_append]
  cases reader? items attempts <;> split <;> simp [hused]

/-- What is read of an item in a run: it is read if it is attempted, and skipped otherwise. -/
def readingAt (c : PassContext) (items : List Item) (events : List Event) (i : Nat) : Reading :=
  let attempts := Event.attempted c items events
  if i ∈ attempts then
    (items.getD i .input).reading
      { c with input := if reader? items attempts = some i then c.input else c.input.used }
  else .cancelled

/-- What comes of the items that are finished, in this order. -/
def gathered {β : Type} (c : PassContext) (items : List Item) (events : List Event)
    (outcome : Reading → Item → Option β) : List β :=
  (events.filterMap Event.finished?).filterMap fun i =>
    outcome (readingAt c items events i) (items.getD i .input)

/-- The faults of the items that are finished. -/
def endedFaults (s : Settings) (c : PassContext) (items : List Item) (events : List Event) :
    List Fault :=
  gathered c items events fun reading item => reading.fault? s item.path

/-- The documents of the items that are finished. -/
def endedFiles (s : Settings) (c : PassContext) (items : List Item) (events : List Event) :
    List (Bytes × Document Span) :=
  gathered c items events fun reading item => reading.file? s item.path

/-- Once an item is started, it is settled what is read of it. -/
theorem readingAt_append (hj : j ∈ past.filterMap Event.started?) (e : Event) :
    readingAt c items (past ++ [e]) j = readingAt c items past j := by
  by_cases hstopped : ∃ e ∈ past, e.halts c items
  · rw [readingAt, Event.attempted_append hstopped, readingAt]
  cases e with
  | finish i => rw [readingAt, Event.attempted_finish, readingAt]
  | start i =>
    have hattempted : j ∈ Event.attempted c items past := by
      rwa [Event.attempted_eq hstopped]
    rw [readingAt, readingAt, Event.attempted_start hstopped,
      if_pos (List.mem_append_left _ hattempted), if_pos hattempted]
    apply Item.reading_congr
    intro hinput
    rw [reader?_append]
    cases hreader : reader? items (Event.attempted c items past) with
    | some k => rfl
    | none =>
      exact absurd (decide_eq_true hinput) (List.find?_eq_none.mp hreader j hattempted)

theorem readingAt_start (hlive : ¬∃ e ∈ past, e.halts c items)
    (hfresh : i ∉ past.filterMap Event.started?) :
    readingAt c items (past ++ [.start i]) i =
      (items.getD i .input).reading
        { c with input := leftover c items (Event.attempted c items past) } := by
  rw [readingAt, Event.attempted_start hlive,
    if_pos (List.mem_append_right _ List.mem_cons_self)]
  apply Item.reading_congr
  intro hinput
  rw [reader?_append, if_pos hinput, leftover]
  cases hreader : reader? items (Event.attempted c items past) with
  | none => simp
  | some k =>
    have hne : k ≠ i := by
      rintro rfl
      exact hfresh (Event.mem_started_of_attempted (List.mem_of_find?_eq_some hreader))
    simp [hne]

theorem readingAt_of_stopped (hstopped : ∃ e ∈ past, e.halts c items)
    (hfresh : i ∉ past.filterMap Event.started?) :
    readingAt c items (past ++ [.start i]) i = .cancelled := by
  rw [readingAt, Event.attempted_append hstopped]
  exact if_neg fun hi => hfresh (Event.mem_started_of_attempted hi)

theorem erase_append_perm {l m : List Nat} (hi : i ∈ l) :
    (l.erase i ++ (m ++ [i])).Perm (l ++ m) := by
  calc (l.erase i ++ (m ++ [i])).Perm (i :: (l.erase i ++ m)) := by
        rw [← List.append_assoc]
        exact List.perm_append_singleton i _
    _ |>.Perm (l ++ m) := (List.perm_cons_erase hi).symm.append_right _

/-- The state of a pass after some events, in which some items are waiting. -/
structure Follows (s : Settings) (c : PassContext) (items : List Item) (told : List Fault)
    (past : List Event) (waiting : List Nat) (p : Progress) : Prop where
  waiting : (waiting ++ past.filterMap Event.started?).Perm (List.range items.length)
  begun : (p.running.map Prod.fst ++ past.filterMap Event.finished?).Perm
    (past.filterMap Event.started?)
  running : ∀ e ∈ p.running, e.2 = readingAt c items past e.1
  input : p.input = leftover c items (Event.attempted c items past)
  report : p.report = ⟨harmless, told ++ endedFaults s c items past⟩
  log : p.log = parsedLog c (endedFiles s c items past)
  failure : p.failure = (p.report.faults.find? (·.code ∉ harmless)).map .fault
  stopped : p.failure.isSome ↔ ∃ e ∈ past, e.halts c items

namespace Follows

theorem start (c : PassContext) (items : List Item) (h : ∀ f ∈ told, f.code ∈ harmless) :
    Follows s c items told [] (List.range items.length) (.start c ⟨harmless, told⟩) where
  waiting := by simp
  begun := List.Perm.refl _
  running _ he := nomatch he
  input := rfl
  report := congrArg (Report.mk harmless) (List.append_nil told).symm
  log := rfl
  failure := by
    have hnone : told.find? (·.code ∉ harmless) = none :=
      List.find?_eq_none.mpr fun f hf => by simpa using h f hf
    change none = (told.find? (·.code ∉ harmless)).map Failure.fault
    rw [hnone, Option.map_none]
  stopped := by simp [Progress.start]

theorem getElem?_eq (h : Follows s c items told past waiting p)
    (hi : i ∈ waiting ++ past.filterMap Event.started?) :
    items[i]? = some (items.getD i .input) := by
  have hlt : i < items.length := List.mem_range.mp (h.waiting.mem_iff.mp hi)
  rw [List.getD_eq_getElem?_getD, List.getElem?_eq_getElem hlt, Option.getD_some]

theorem nodup (h : Follows s c items told past waiting p) :
    (waiting ++ past.filterMap Event.started?).Nodup :=
  h.waiting.nodup_iff.mpr List.nodup_range

theorem nodup_running (h : Follows s c items told past waiting p) :
    (p.running.map Prod.fst).Nodup :=
  List.Nodup.of_append_left (h.begun.nodup_iff.mpr (List.Nodup.of_append_right h.nodup))

theorem mem_started_of_running (h : Follows s c items told past waiting p)
    (hi : i ∈ p.running.map Prod.fst) : i ∈ past.filterMap Event.started? :=
  h.begun.mem_iff.mp (List.mem_append_left _ hi)

theorem not_mem_started (h : Follows s c items told past waiting p) (hi : i ∈ waiting) :
    i ∉ past.filterMap Event.started? :=
  (List.nodup_append'.mp h.nodup).2.2 hi

/-- What came of items before stays as it is. -/
theorem gathered_append {β : Type} (h : Follows s c items told past waiting p) (e : Event)
    (outcome : Reading → Item → Option β) :
    gathered c items (past ++ [e]) outcome = gathered c items past outcome ++
      ([e].filterMap Event.finished?).filterMap fun i =>
        outcome (readingAt c items (past ++ [e]) i) (items.getD i .input) := by
  rw [gathered, List.filterMap_append, List.filterMap_append, gathered]
  congr 1
  apply List.filterMap_congr
  intro j hj
  rw [readingAt_append (h.begun.mem_iff.mp (List.mem_append_right _ hj))]

theorem gathered_start {β : Type} (h : Follows s c items told past waiting p) (i : Nat)
    (outcome : Reading → Item → Option β) :
    gathered c items (past ++ [.start i]) outcome = gathered c items past outcome :=
  (h.gathered_append (.start i) outcome).trans (List.append_nil _)

theorem gathered_finish {β : Type} (h : Follows s c items told past waiting p)
    (hi : i ∈ p.running.map Prod.fst) (outcome : Reading → Item → Option β) :
    gathered c items (past ++ [.finish i]) outcome = gathered c items past outcome ++
      (outcome (readingAt c items past i) (items.getD i .input)).toList := by
  rw [h.gathered_append, ← readingAt_append (h.mem_started_of_running hi) (.finish i)]
  rfl

theorem step_start_eq (hcancelled : c.cancelled = false)
    (h : Follows s c items told past waiting p) (hi : i ∈ waiting) :
    p.step s c items (.start i) =
      { p with
        input := leftover c items (Event.attempted c items (past ++ [.start i]))
        running := (i, readingAt c items (past ++ [.start i]) i) :: p.running } := by
  have hstep : p.step s c items (.start i) = p.begin c i (items.getD i .input) := by
    rw [Progress.step, h.getElem?_eq (List.mem_append_left _ hi)]
  have hfresh := h.not_mem_started hi
  rw [hstep]
  by_cases hstopped : ∃ e ∈ past, e.halts c items
  · rw [Progress.begin_of_failure (h.stopped.mpr hstopped), readingAt_of_stopped hstopped hfresh,
      Event.attempted_append hstopped, ← h.input]
  · have hfailure : p.failure = none :=
      Option.not_isSome_iff_eq_none.mp fun hsome => hstopped (h.stopped.mp hsome)
    rw [Progress.begin_eq hcancelled hfailure, readingAt_start hstopped hfresh,
      Event.attempted_start hstopped, leftover_append, h.input]

theorem begin (hcancelled : c.cancelled = false) (h : Follows s c items told past waiting p)
    (hi : i ∈ waiting) :
    Follows s c items told (past ++ [.start i]) (waiting.erase i) (p.step s c items (.start i)) ∧
      (p.step s c items (.start i)).running.map Prod.fst = i :: p.running.map Prod.fst := by
  have hstarted : (past ++ [Event.start i]).filterMap Event.started? =
      past.filterMap Event.started? ++ [i] := by
    rw [List.filterMap_append]
    rfl
  have hfinished : (past ++ [Event.start i]).filterMap Event.finished? =
      past.filterMap Event.finished? := by
    rw [List.filterMap_append]
    exact List.append_nil _
  rw [h.step_start_eq hcancelled hi]
  refine ⟨⟨?_, ?_, ?_, rfl, ?_, ?_, h.failure, ?_⟩, rfl⟩
  · rw [hstarted]
    exact (erase_append_perm hi).trans h.waiting
  · rw [hstarted, hfinished]
    exact (h.begun.cons i).trans (List.perm_append_singleton i _).symm
  · refine List.forall_mem_cons.mpr ⟨rfl, fun e he => ?_⟩
    have hbefore := h.mem_started_of_running (List.mem_map_of_mem he)
    rw [readingAt_append hbefore]
    exact h.running e he
  · rw [endedFaults, h.gathered_start]
    exact h.report
  · rw [endedFiles, h.gathered_start]
    exact h.log
  · rw [h.stopped]
    simp [Event.halts]

/-- A running item was skipped only if the work had been stopped. -/
theorem exists_halts_of_cancelled (h : Follows s c items told past waiting p)
    (hi : i ∈ p.running.map Prod.fst) (hcancelled : readingAt c items past i = .cancelled) :
    ∃ e ∈ past, e.halts c items := by
  by_contra hlive
  rw [readingAt, Event.attempted_eq hlive, if_pos (h.mem_started_of_running hi)] at hcancelled
  exact Item.reading_ne_cancelled _ _ hcancelled

/-- The work stops when it is finished with an item that stops it. -/
theorem isSome_failure_iff (h : Follows s c items told past waiting p)
    (hi : i ∈ p.running.map Prod.fst) :
    (p.failure.or
        ((readingAt c items past i).failure? s (items.getD i .input).path)).isSome ↔
      ∃ e ∈ past ++ [.finish i], e.halts c items := by
  by_cases hstopped : ∃ e ∈ past, e.halts c items
  · obtain ⟨e, he, hhalts⟩ := hstopped
    have hsome : p.failure.isSome = true := h.stopped.mpr ⟨e, he, hhalts⟩
    rw [Option.or_of_isSome hsome]
    exact iff_of_true hsome ⟨e, List.mem_append_left _ he, hhalts⟩
  · have hnone : p.failure = none :=
      Option.not_isSome_iff_eq_none.mp fun hsome => hstopped (h.stopped.mp hsome)
    have hattempted : i ∈ Event.attempted c items past := by
      rw [Event.attempted_eq hstopped]
      exact h.mem_started_of_running hi
    have hstops : ((readingAt c items past i).failure? s (items.getD i .input).path).isSome =
        (items.getD i .input).stops c := by
      rw [readingAt, if_pos hattempted, Item.isSome_failure?_reading]
      split
      · rfl
      · exact Item.stops_used c _
    rw [hnone, Option.none_or, hstops]
    constructor
    · intro hstops
      exact ⟨.finish i, List.mem_append_right _ List.mem_cons_self, hstops⟩
    · rintro ⟨e, he, hhalts⟩
      rcases List.mem_append.mp he with he | he
      · exact absurd ⟨e, he, hhalts⟩ hstopped
      · rwa [List.mem_singleton.mp he] at hhalts

/-- The failure that stops the work is the first fault of its kind. -/
theorem or_failure_eq (h : Follows s c items told past waiting p)
    (hi : i ∈ p.running.map Prod.fst) (path : Bytes) :
    p.failure.or ((readingAt c items past i).failure? s path) =
      ((p.report.faults ++ ((readingAt c items past i).fault? s path).toList).find?
        (·.code ∉ harmless)).map .fault := by
  by_cases hcancelled : readingAt c items past i = .cancelled
  · have hsome := h.stopped.mpr (h.exists_halts_of_cancelled hi hcancelled)
    rw [Option.or_of_isSome hsome, h.failure, hcancelled]
    simp [Reading.fault?, Reading.outcome?]
  · rw [h.failure, Reading.failure?, if_neg hcancelled, List.find?_append, Option.map_or]
    cases (readingAt c items past i).fault? s path with
    | none => rfl
    | some f => by_cases hf : f.code ∈ harmless <;> simp [Option.filter, hf]

theorem lookup_running (h : Follows s c items told past waiting p)
    (hi : i ∈ p.running.map Prod.fst) :
    p.running.lookup i = some (readingAt c items past i) := by
  cases hlookup : p.running.lookup i with
  | none =>
    obtain ⟨e, he, rfl⟩ := List.mem_map.mp hi
    simpa using List.lookup_eq_none_iff.mp hlookup e he
  | some reading => exact congrArg some (h.running _ (Progress.mem_running_of_lookup hlookup))

theorem finish (h : Follows s c items told past waiting p) (hi : i ∈ p.running.map Prod.fst) :
    Follows s c items told (past ++ [.finish i]) waiting (p.step s c items (.finish i)) ∧
      (p.step s c items (.finish i)).running.map Prod.fst =
        (p.running.map Prod.fst).erase i := by
  have hitem := h.getElem?_eq (List.mem_append_right _ (h.mem_started_of_running hi))
  have hstep := Progress.step_finish_eq (s := s) (c := c) hitem (h.lookup_running hi)
  have hstarted : (past ++ [Event.finish i]).filterMap Event.started? =
      past.filterMap Event.started? := by
    rw [List.filterMap_append]
    exact List.append_nil _
  have hfinished : (past ++ [Event.finish i]).filterMap Event.finished? =
      past.filterMap Event.finished? ++ [i] := by
    rw [List.filterMap_append]
    rfl
  have hrest : (p.step s c items (.finish i)).running.map Prod.fst =
      (p.running.map Prod.fst).erase i := by
    rw [hstep, Progress.conclude_running, h.nodup_running.erase_eq_filter, List.filter_map]
    rfl
  have hreport : (p.step s c items (.finish i)).report = ⟨p.report.harmless, p.report.faults ++
      ((readingAt c items past i).fault? s (items.getD i .input).path).toList⟩ := by
    rw [hstep, Progress.conclude_report]
  have hlog : (p.step s c items (.finish i)).log = p.log ++ parsedLog c
      ((readingAt c items past i).file? s (items.getD i .input).path).toList := by
    rw [hstep, Progress.conclude_log]
  have hfailure : (p.step s c items (.finish i)).failure =
      p.failure.or ((readingAt c items past i).failure? s (items.getD i .input).path) := by
    rw [hstep]
    exact Progress.conclude_failure _ _ _ _ (congrArg Report.harmless h.report)
  refine ⟨⟨?_, ?_, ?_, ?_, ?_, ?_, ?_, ?_⟩, hrest⟩
  · rw [hstarted]
    exact h.waiting
  · rw [hstarted, hfinished, hrest]
    exact (erase_append_perm hi).trans h.begun
  · intro e he
    rw [hstep, Progress.conclude_running] at he
    have hbefore := List.mem_of_mem_filter he
    have hstarted := h.mem_started_of_running (List.mem_map_of_mem hbefore)
    rw [readingAt_append hstarted]
    exact h.running e hbefore
  · rw [hstep, Progress.conclude_input, Event.attempted_finish]
    exact h.input
  · rw [hreport, h.report, endedFaults, endedFaults, h.gathered_finish hi, List.append_assoc]
  · rw [hlog, h.log, endedFiles, endedFiles, h.gathered_finish hi, parsedLog_append]
  · rw [hfailure, hreport]
    exact h.or_failure_eq hi _
  · rw [hfailure]
    exact h.isSome_failure_iff hi

/-- A schedule that is completed leads from every state to one in which nothing waits or runs. -/
theorem run {limit : Nat} (hcancelled : c.cancelled = false)
    (h : Follows s c items told past waiting p)
    (hcomplete : Event.complete limit waiting (p.running.map Prod.fst) events = true) :
    Follows s c items told (past ++ events) [] (events.foldl (Progress.step s c items) p) ∧
      (events.foldl (Progress.step s c items) p).running = [] := by
  induction events generalizing past waiting p with
  | nil =>
    simp only [Event.complete, Bool.and_eq_true, List.isEmpty_iff] at hcomplete
    obtain ⟨rfl, hrunning⟩ := hcomplete
    rw [List.append_nil]
    exact ⟨h, List.map_eq_nil_iff.mp hrunning⟩
  | cons e events ih =>
    rw [List.append_cons, List.foldl_cons]
    cases e with
    | start i =>
      simp only [Event.complete, Bool.and_eq_true, List.contains_iff_mem] at hcomplete
      obtain ⟨hnext, hrunning⟩ := h.begin hcancelled hcomplete.1.1
      exact ih hnext (hrunning ▸ hcomplete.2)
    | finish i =>
      simp only [Event.complete, Bool.and_eq_true, List.contains_iff_mem] at hcomplete
      obtain ⟨hnext, hrunning⟩ := h.finish hcomplete.1
      exact ih hnext (hrunning ▸ hcomplete.2)

theorem finish_mem (h : Follows s c items told events [] p) (hrunning : p.running = [])
    (hi : i < items.length) : Event.finish i ∈ events := by
  have hperm := h.begun.trans h.waiting
  rw [hrunning, List.map_nil, List.nil_append] at hperm
  obtain ⟨e, he, hei⟩ := List.mem_filterMap.mp (hperm.mem_iff.mpr (List.mem_range.mpr hi))
  cases e with
  | start j => nomatch hei
  | finish j =>
    cases hei
    exact he

/-- In the end an item that stops the work has stopped it, and the failure is one of the faults that
came of the items. -/
theorem exists_failure (h : Follows s c items told events [] p) (hrunning : p.running = [])
    (htold : ∀ f ∈ told, f.code ∈ harmless) (hstops : ∃ item ∈ items, item.stops c) :
    ∃ f ∈ endedFaults s c items events, f.code ∉ harmless ∧ p.failure = some (.fault f) := by
  have hhalts : ∃ e ∈ events, e.halts c items := by
    obtain ⟨item, hitem, hitemStops⟩ := hstops
    obtain ⟨i, hi, rfl⟩ := List.mem_iff_getElem.mp hitem
    refine ⟨.finish i, h.finish_mem hrunning hi, ?_⟩
    rwa [Event.halts, List.getD_eq_getElem?_getD, List.getElem?_eq_getElem hi]
  obtain ⟨failure, hfailure⟩ := Option.isSome_iff_exists.mp (h.stopped.mpr hhalts)
  obtain ⟨f, hfound, rfl⟩ := Option.map_eq_some_iff.mp (h.failure ▸ hfailure)
  have hcode : f.code ∉ harmless := by simpa using List.find?_some hfound
  have hmem := List.mem_of_find?_eq_some hfound
  rw [h.report] at hmem
  exact ⟨f, (List.mem_append.mp hmem).resolve_left fun hf => hcode (htold f hf), hcode, hfailure⟩

end Follows

end SchemaDoc.Pass
