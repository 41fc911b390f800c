import SchemaDoc.Fault

/-! # Reports

A report collects the faults of independent pieces of work so that all of them
can be shown together. A fault whose code is not among the harmless ones is
fatal: whoever reports it should stop.
-/

namespace SchemaDoc

structure Report where
  harmless : List Bytes
  faults : List Fault
deriving DecidableEq, Repr

namespace Report

def empty (harmless : List Bytes) : Report := ⟨harmless, []⟩

def isFatal (r : Report) (f : Fault) : Bool := !r.harmless.contains f.code

def add (r : Report) (f : Fault) : Report := ⟨r.harmless, r.faults ++ [f]⟩

/-- Order by resource and then by offset. -/
def placeLe (a b : Fault) : Bool :=
  match compare a.place.uri b.place.uri with
  | .lt => true
  | .eq => a.place.offset ≤ b.place.offset
  | .gt => false

/-- All faults by place; faults of one place stay in the order of their reports. -/
def sorted (r : Report) : List Fault := r.faults.mergeSort placeLe

def joined (faults : List Fault) : Bytes := Bytes.join (bytes "; ") (faults.map Fault.text)

def text? (r : Report) : Option Bytes := if r.faults.isEmpty then none else some (joined r.sorted)

end Report

end SchemaDoc
