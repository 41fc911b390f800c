import SchemaDoc.Store.Table

/-! # Stores on disk

A table serves as the files of a machine. Paths are looked up component by
component from the top, and what ends the search is told in the words of the
operating system.
-/

namespace SchemaDoc.Disk

def nameLimit : Nat := 255

/-- Paths are shorter than this. -/
def pathLimit : Nat := 4096

inductive LookupProblem where
  | missing
  | notDirectory
  | tooLong
  | zeroByte
deriving DecidableEq, Repr

namespace LookupProblem

def reason : LookupProblem → AccessReason
  | .missing => .missing
  | _ => .other

def text : LookupProblem → Bytes
  | .missing => bytes "no such file or directory"
  | .notDirectory => bytes "not a directory"
  | .tooLong => bytes "file name too long"
  | .zeroByte => bytes "invalid argument"

end LookupProblem

/-- The entry at components below those already passed. -/
def lookupFrom (t : Table) (passed : List Bytes) (e : Entry) :
    List Bytes → Except LookupProblem Entry
  | [] => .ok e
  | name :: rest =>
    if e.kind = .file then .error .notDirectory
    else if nameLimit < name.length then .error .tooLong
    else match t.get? (Path.render (passed ++ [name])) with
      | none => .error .missing
      | some e => lookupFrom t (passed ++ [name]) e rest

def lookup (t : Table) (path : Bytes) : Except LookupProblem Entry :=
  if path.contains 0 then .error .zeroByte
  else if pathLimit ≤ path.length then .error .tooLong
  else lookupFrom t [] ((t.get? (Path.render [])).getD .emptyDirectory) (Path.components path)

/-- The entry at a path, for an operation that is named if it fails. -/
def access (t : Table) (operation path : Bytes) : Except AccessProblem Entry :=
  match lookup t path with
  | .ok e => .ok e
  | .error p => .error (.named operation path p.reason p.text)

def store (t : Table) : Store where
  kind path := match access t (bytes "stat") path with
    | .ok e => .ok e.kind
    | .error p => .error p
  entries path := match access t (bytes "open") path with
    | .ok e => .ok (t.children e)
    | .error p => .error p
  read path := match access t (bytes "open") path with
    | .ok e => .ok e.contents
    | .error p => .error (.opening p)

end SchemaDoc.Disk
