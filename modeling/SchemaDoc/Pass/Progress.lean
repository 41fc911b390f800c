import SchemaDoc.Pass.Opening
import SchemaDoc.Pass.Schedule
import SchemaDoc.Summary

/-! # Parsing items

Starting an item reads it, finishing it parses what was read and tells the
outcome. Failures that concern a single file are collected; the first one of
another kind stops the items that have not been started.
-/

namespace SchemaDoc.Pass

inductive Reading where
  | cancelled
  | failed (fault : Fault)
  | body (text : Bytes)
deriving DecidableEq, Repr

def Reading.ofBody : Except Fault Bytes → Reading
  | .ok text => .body text
  | .error f => .failed f

structure Progress where
  input : Input
  running : List (Nat × Reading)
  documents : List (Nat × Document Span)
  report : Report
  /-- The first failure that stops the work. -/
  failure : Option Failure
  log : Bytes

namespace Progress

def start (c : PassContext) (report : Report) : Progress := ⟨c.input, [], [], report, none, []⟩

def fail (p : Progress) (f : Failure) : Progress := { p with failure := p.failure.or (some f) }

/-- Reports a fault; one that is not harmless stops the work. -/
def note (p : Progress) (f : Fault) : Progress :=
  let told := { p with report := p.report.add f }
  if p.report.isFatal f then told.fail (.fault f) else told

/-- Starts an item. Standard input is used up by the first item that reads it. -/
def begin (c : PassContext) (p : Progress) (index : Nat) (item : Item) : Progress :=
  if c.cancelled || p.failure.isSome then
    { p with running := (index, .cancelled) :: p.running }
  else
    { p with
      input := if item = .input then p.input.used else p.input
      running := (index, .ofBody (item.body c.store p.input)) :: p.running }

def cancellation : Failure := .plain (bytes "context canceled")

def parsedEntry (c : PassContext) (path : Bytes) (d : Document Span) : Log.Entry :=
  let s := Summary.ofDocument d
  ⟨.info, bytes "parsed",
    [(bytes "file", .text path), (bytes "definitions", .nat s.definitions),
      (bytes "fields", .nat s.fields), (bytes "arguments", .nat s.arguments),
      (bytes "interfaces", .nat s.interfaces), (bytes "duration", c.elapsed)]⟩

/-- The source of an item, under the name that the settings give to all of them if they do. -/
def source (s : Settings) (path body : Bytes) : Source :=
  .named (if s.sourceName.isEmpty then path else s.sourceName) body

def conclude (s : Settings) (c : PassContext) (p : Progress) (index : Nat) (path : Bytes) :
    Reading → Progress
  | .cancelled => p.fail cancellation
  | .failed f => p.note f
  | .body body => match (source s path body).parse with
    | .error f => p.note f
    | .ok d =>
      { p with
        documents := (index, d) :: p.documents
        log := p.log ++ c.log.write c.time (parsedEntry c path d) }

/-- An event for an item that is not there, or the end of an item that was not started, changes
nothing. -/
def step (s : Settings) (c : PassContext) (items : List Item) (p : Progress) : Event → Progress
  | .start i => match items[i]? with
    | none => p
    | some item => p.begin c i item
  | .finish i => match items[i]?, p.running.lookup i with
    | some item, some reading =>
      { p with running := p.running.filter (·.1 != i) }.conclude s c i item.path reading
    | _, _ => p

def ofSchedule (s : Settings) (c : PassContext) (opening : Opening) (events : List Event) :
    Progress :=
  events.foldl (step s c opening.items) (start c opening.report)

/-- The parsed documents with their paths, in the order of the items. -/
def results (p : Progress) (items : List Item) : List (Bytes × Document Span) :=
  items.zipIdx.filterMap fun (item, i) => (p.documents.lookup i).map fun d => (item.path, d)

end Progress

end SchemaDoc.Pass
