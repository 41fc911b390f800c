import SchemaDoc.Settings.Load
import SchemaDoc.Store.Basic

/-! # Watched directories

A target is watched through a directory: the target itself if it is one, and the
directory around it otherwise. Targets are taken as plain paths below the root.
-/

namespace SchemaDoc.Watch

/-- The directories of targets without those already seen, each once, in the order in which they
are first met. -/
def directoriesFrom (disk : Store) (root : Bytes) (seen : List Bytes) :
    List Bytes → Except AccessProblem (List Bytes)
  | [] => .ok []
  | target :: rest =>
    if target = inputTarget then directoriesFrom disk root seen rest
    else
      let path := Path.below root target
      match disk.kind path with
      | .error p => .error p
      | .ok k =>
        let directory := if k = .directory then path else Path.parent path
        if seen.contains directory then directoriesFrom disk root seen rest
        else (directoriesFrom disk root (directory :: seen) rest).map (directory :: ·)

def directories (disk : Store) (root : Bytes) (targets : List Bytes) :
    Except AccessProblem (List Bytes) :=
  directoriesFrom disk root [] targets

end SchemaDoc.Watch
