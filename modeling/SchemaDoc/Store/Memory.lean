import SchemaDoc.Store.Table

/-! # Stores in memory

A table serves as a store of its own. A path that it lacks is missing for every
operation in the same words. Failures can be laid over any store, path by path,
to see what becomes of them.
-/

namespace SchemaDoc

namespace Table

private def absent (path : Bytes) : AccessProblem :=
  .named (bytes "open") (spell path) .missing (bytes "file does not exist")

/-- The store of a table. A directory reads as its contents, which are empty unless written. -/
def memory (t : Table) : Store where
  kind path := match t.get? path with
    | some e => .ok e.kind
    | none => .error (absent path)
  entries path := match t.get? path with
    | some e => .ok (t.children e)
    | none => .error (absent path)
  read path := match t.get? path with
    | some e => .ok e.contents
    | none => .error (.opening (absent path))

end Table

inductive Trouble where
  | missing
  | denied
  | inputOutput
  | device
deriving DecidableEq, Repr

namespace Trouble

def deviceMessage : Bytes := bytes "device unavailable"

/-- The problem of an operation on a path. A device that fails names no path. -/
def problem (operation path : Bytes) : Trouble → AccessProblem
  | .missing => .named operation path .missing (bytes "file does not exist")
  | .denied => .named operation path .denied (bytes "permission denied")
  | .inputOutput => .named operation path .other (bytes "input/output error")
  | .device => ⟨none, .other, deviceMessage⟩

end Trouble

structure Troubles where
  kind : Option Trouble
  opening : Option Trouble
  reading : Bool
deriving DecidableEq, Repr

namespace Store

/-- A store in which some paths are in trouble. Directories are opened to be listed. -/
def troubled (troubles : Bytes → Option Troubles) (s : Store) : Store where
  kind path := match (troubles path).bind Troubles.kind with
    | some t => .error (t.problem (bytes "stat") path)
    | none => s.kind path
  entries path := match (troubles path).bind Troubles.opening with
    | some t => .error (t.problem (bytes "open") path)
    | none => s.entries path
  read path := match (troubles path).bind Troubles.opening with
    | some t => .error (.opening (t.problem (bytes "open") path))
    | none => match s.read path with
      | .error p => .error p
      | .ok body =>
        if ((troubles path).map Troubles.reading).getD false then
          .error (.reading Trouble.deviceMessage)
        else .ok body

end Store

end SchemaDoc
