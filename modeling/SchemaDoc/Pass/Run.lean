import SchemaDoc.Pass.Printed
import SchemaDoc.Pass.Progress

/-! # Passes

A pass opens its targets, parses every file they stand for and prints the
documents in the order of the targets. All faults are shown in the end, sorted.
When a failure has stopped the work nothing is printed.
-/

namespace SchemaDoc

structure Completion where
  status : Nat
  output : Bytes
  errors : Bytes
deriving DecidableEq, Repr

namespace Pass

def line (text : Bytes) : Bytes := text ++ [0x0A]

def faultLines (r : Report) : Bytes := r.sorted.flatMap fun f => line f.text

/-- The end of a pass with given results or with the failure that stopped it. A fault that stopped
it is in the report already. -/
def complete (printed : Except Failure Printed) (log : Bytes) (report : Report) : Completion :=
  let (output, problem) : Bytes × Bytes := match printed with
    | .ok p => (p.text, ((p.problem.map fun q => line q.message).getD []))
    | .error (.plain message) => ([], line message)
    | .error (.fault _) => ([], [])
  { status := if problem.isEmpty && report.faults.isEmpty then 0 else 1
    output := output
    errors := log ++ problem ++ faultLines report }

def runWith (s : Settings) (c : PassContext) (schedule : Nat → List Event) (targets : List Bytes) :
    Completion :=
  let opening := Opening.ofTargets c targets
  match opening.fatal with
  | some f => complete (.error (.fault f)) opening.log opening.report
  | none =>
    let progress := Progress.ofSchedule s c opening (schedule opening.items.length)
    let printed : Except Failure Printed := match progress.failure with
      | some failure => .error failure
      | none => .ok (.ofResults s c.order c.outputOpen (progress.results opening.items))
    complete printed (opening.log ++ progress.log) progress.report

/-- A pass that works on one file after the other. -/
def run (s : Settings) (c : PassContext) (targets : List Bytes) : Completion :=
  runWith s c Event.sequential targets

end Pass

end SchemaDoc
