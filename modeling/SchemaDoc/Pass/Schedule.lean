/-! # Schedules

Items are worked on independently: each is started once and finished once later,
and a limit bounds how many may be under way. A schedule is any order of these
events that completes the work.
-/

namespace SchemaDoc.Pass

/-- What happens to an item, which is given by its index. -/
inductive Event where
  | start (index : Nat)
  | finish (index : Nat)
deriving DecidableEq, Repr

namespace Event

/-- Whether events complete the work from where some items are waiting and some running, with
never more than `limit` of them running. -/
def complete (limit : Nat) (waiting running : List Nat) : List Event → Bool
  | [] => waiting.isEmpty && running.isEmpty
  | .start i :: rest =>
    waiting.contains i && running.length < limit &&
      complete limit (waiting.erase i) (i :: running) rest
  | .finish i :: rest => running.contains i && complete limit waiting (running.erase i) rest

def isSchedule (limit count : Nat) (events : List Event) : Bool :=
  complete limit (List.range count) [] events

def sequential (count : Nat) : List Event :=
  (List.range count).flatMap fun i => [.start i, .finish i]

end Event

end SchemaDoc.Pass
