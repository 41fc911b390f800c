import SchemaDoc.Store.Basic

/-! # Tables of files

A table lists what stands at each clean path. A directory knows the paths in it,
and writing a file makes the directories above it. A relative path is not the
same as the path from the root with the same components, but the root is above
both of them.
-/

namespace SchemaDoc

structure Entry where
  contents : Bytes
  members : Option (List Bytes)
deriving DecidableEq, Repr

namespace Entry

def emptyDirectory : Entry := ⟨[], some []⟩

def kind (e : Entry) : EntryKind := if e.members.isSome then .directory else .file

/-- An entry with a path in it; a file becomes a directory. -/
def addMember (path : Bytes) (e : Entry) : Entry :=
  let members := e.members.getD []
  { e with members := some (if members.contains path then members else members ++ [path]) }

def eraseMember (path : Bytes) (e : Entry) : Entry :=
  { e with members := e.members.map (·.filter (· != path)) }

end Entry

/-- Entries by clean path. -/
structure Table where
  entries : List (Bytes × Entry)
deriving DecidableEq, Repr

namespace Table

def root : Bytes := Path.render []

def empty : Table := ⟨[(root, .emptyDirectory)]⟩

/-- A path as a table spells it. A path that leads nowhere from where it starts is the root, and so
is the path to what is above. -/
def spell (p : Bytes) : Bytes :=
  let clean := Path.clean p
  if clean = Path.dot || clean = Path.dots then root else clean

/-- The directories above components, which are given the last one first. The nearest directory
comes first; the root is above everything and itself. -/
private def aboveComponents (write : List Bytes → Bytes) : List Bytes → List Bytes
  | [] => [root]
  | _ :: rest => spell (write rest.reverse) :: aboveComponents write rest

/-- The directories above a clean path, the nearest one first. The root is above itself, so
something written in its place is a directory at once. -/
def above (path : Bytes) : List Bytes :=
  if Path.isAbsolute path then aboveComponents Path.render (Path.components path).reverse
  else aboveComponents (Bytes.join [0x2F]) (Bytes.split 0x2F path).reverse

def get? (t : Table) (path : Bytes) : Option Entry := t.entries.lookup (spell path)

private def put (t : Table) (key : Bytes) (e : Entry) : Table :=
  ⟨(key, e) :: t.entries.filter (·.1 != key)⟩

private def modify (t : Table) (key : Bytes) (f : Entry → Entry) : Table :=
  ⟨t.entries.map fun (k, e) => if k = key then (k, f e) else (k, e)⟩

/-- Puts a path into the first of the directories above it. A directory that is missing is made, and
put into the next one. -/
private def register (t : Table) (path : Bytes) : List Bytes → Table
  | [] => t
  | directory :: rest =>
    let t := if (t.get? directory).isSome then t
      else register (t.put directory .emptyDirectory) directory rest
    t.modify directory (Entry.addMember path)

private def insertNew (t : Table) (path : Bytes) (e : Entry) : Table :=
  (t.put path e).register path (above path)

def write (t : Table) (path contents : Bytes) : Table :=
  match t.get? path with
  | some e => t.put (spell path) { e with contents := contents }
  | none => t.insertNew (spell path) ⟨contents, none⟩

def makeDirectory (t : Table) (path : Bytes) : Table :=
  match t.get? path with
  | some _ => t
  | none => t.insertNew (spell path) .emptyDirectory

/-- A table without the entry at a path. What a directory held stays where it is, but a new directory
in its place does not know of it. -/
def remove (t : Table) (path : Bytes) : Table :=
  let path := spell path
  let rest : Table := ⟨t.entries.filter (·.1 != path)⟩
  match above path with
  | [] => rest
  | directory :: _ => rest.modify directory (Entry.eraseMember path)

def ofList (directories : List Bytes) (files : List (Bytes × Bytes)) : Table :=
  files.foldl (fun t f => t.write f.1 f.2) (directories.foldl makeDirectory empty)

def children (t : Table) (directory : Entry) : List (Bytes × EntryKind) :=
  (directory.members.getD []).filterMap fun path =>
    (t.get? path).map fun e => (Path.name path, e.kind)

end Table

end SchemaDoc
