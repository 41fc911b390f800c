import SchemaDoc.Fault
import SchemaDoc.Path
import SchemaDoc.Uri

/-! # Stores

A store holds files and directories under paths from its root. A target names
either a file or a directory; a directory stands for the schema files directly
in it, in the order of their names. Every path that a target leads to is taken
from the root and clean, so no target leads out of the store.
-/

namespace SchemaDoc

inductive EntryKind where
  | file
  | directory
deriving DecidableEq, Repr

inductive AccessReason where
  | missing
  | denied
  | other
deriving DecidableEq, Repr

/-- A path that cannot be used. The path is the one under which the store itself knows it, if the
store tells. -/
structure AccessProblem where
  path : Option Bytes
  reason : AccessReason
  message : Bytes
deriving DecidableEq, Repr

/-- A file is read in two steps, and either may fail. -/
inductive ReadProblem where
  | opening (problem : AccessProblem)
  | reading (message : Bytes)
deriving DecidableEq, Repr

namespace AccessReason

def code : AccessReason → Bytes
  | .missing => Code.fileNotFound
  | .denied => Code.permissionDenied
  | .other => Code.unknown

end AccessReason

namespace AccessProblem

def named (operation path : Bytes) (reason : AccessReason) (text : Bytes) : AccessProblem :=
  ⟨some path, reason, operation ++ bytes " " ++ path ++ bytes ": " ++ text⟩

def fault (path : Bytes) (p : AccessProblem) : Fault :=
  (Failure.plain p.message).wrap (.ofUri (p.path.getD path)) p.reason.code

end AccessProblem

namespace ReadProblem

def message : ReadProblem → Bytes
  | .opening p => p.message
  | .reading message => message

def fault (path : Bytes) : ReadProblem → Fault
  | .opening p => p.fault path
  | .reading message => (Failure.plain message).wrapUnknown (.ofUri path)

end ReadProblem

/-- What can be asked about paths. The entries of a directory come in any order. -/
structure Store where
  kind : Bytes → Except AccessProblem EntryKind
  entries : Bytes → Except AccessProblem (List (Bytes × EntryKind))
  read : Bytes → Except ReadProblem Bytes

def isSchemaFile (name : Bytes) : Bool :=
  [bytes ".graphql", bytes ".graphqls", bytes ".gql"].contains (Path.extension name)

namespace Store

/-- The store whose root is a directory of another one. Problems are told with the paths of the
larger store, so that they can be understood outside of this one. -/
def below (s : Store) (root : Bytes) : Store where
  kind path := s.kind (Path.below root path)
  entries path := s.entries (Path.below root path)
  read path := s.read (Path.below root path)

/-- The path that a target names. -/
def resolve (target : Bytes) : Bytes := Path.rooted (Uri.target target)

/-- The files among the entries of a directory that a filter accepts, in the order of their
names. -/
def select (accepts : Bytes → Bool) (directory : Bytes) (entries : List (Bytes × EntryKind)) :
    List Bytes :=
  let files := entries.filter fun e => e.2 == .file && accepts e.1
  ((files.map Prod.fst).mergeSort Bytes.le).map (Path.below directory)

def noSchemaFiles (directory : Bytes) : Fault :=
  .new (.ofUri directory) Code.fileNotFound <|
    bytes "found directory " ++ directory ++ bytes " but it has no schema files"

/-- The paths of the files that a target stands for. A directory without any is a fault. -/
def locate (s : Store) (accepts : Bytes → Bool) (target : Bytes) : Except Fault (List Bytes) :=
  let path := resolve target
  match s.kind path with
  | .error p => .error (p.fault path)
  | .ok .file => .ok [path]
  | .ok .directory =>
    match s.entries path with
    | .error p => .error (p.fault path)
    | .ok entries =>
      match select accepts path entries with
      | [] => .error (noSchemaFiles path)
      | files => .ok files

def body (s : Store) (path : Bytes) : Except Fault Bytes :=
  match s.read path with
  | .ok body => .ok body
  | .error p => .error (p.fault path)

/-- The source and the document at a path, which is used as it is given. Whatever keeps the file
from being read, it counts as not found. -/
def parseFile (s : Store) (path : Bytes) : Except Fault (Source × Document Span) :=
  match s.read path with
  | .error p => .error ((Failure.plain p.message).wrap (.ofUri path) Code.fileNotFound)
  | .ok body =>
    let source := Source.named path body
    match source.parse with
    | .error f => .error f
    | .ok document => .ok (source, document)

end Store

end SchemaDoc
