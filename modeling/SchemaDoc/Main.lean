import SchemaDoc.CommandLine
import SchemaDoc.Store.Disk
import SchemaDoc.Store.Memory
import Std.Time.DateTime

/-! # The program

The arguments, the variables and the files that an invocation needs are gathered
first; then its completion is written and its status returned.
-/

namespace SchemaDoc.Program

def ofText (s : String) : Bytes := s.toUTF8.toList

def toText (b : Bytes) : String := (String.fromUTF8? ⟨b.toArray⟩).getD ""

structure Findings where
  table : Table
  unreadable : List Bytes

namespace Findings

def add (f : Findings) (path : Bytes) : IO Findings := do
  let place := (← IO.currentDir) / toText path
  if ← place.isDir then return { f with table := f.table.makeDirectory path }
  unless ← place.pathExists do return f
  try
    let body ← IO.FS.readBinFile place
    return { f with table := f.table.write path body.toList }
  catch _ =>
    return ⟨f.table.write path [], path :: f.unreadable⟩

/-- Adds the directories above an absolute path, the path, and the schema files directly in it. -/
def addAround (f : Findings) (path : Bytes) : IO Findings := do
  let mut f := f
  let components := Path.components path
  for depth in List.range (components.length + 1) do
    f ← f.add (Path.render (components.take depth))
  let place := (← IO.currentDir) / toText path
  if ← place.isDir then
    for entry in ← place.readDir do
      if isSchemaFile (ofText entry.fileName) then
        f ← f.add (Path.below path (ofText entry.fileName))
  return f

def disk (f : Findings) : Store :=
  (Disk.store f.table).troubled fun path =>
    if f.unreadable.contains path then some ⟨none, some .denied, false⟩ else none

end Findings

def readVariables : IO (List (Bytes × Bytes)) :=
  Setting.all.filterMapM fun setting => do
    return (← IO.getEnv (toText setting.variableName)).map fun value =>
      (setting.variableName, ofText value)

private def padded (width : Nat) (n : Int) : Bytes :=
  let digits := Bytes.decimal n.toNat
  List.replicate (width - digits.length) 0x30 ++ digits

/-- The present time in the form `2006-01-02T15:04:05Z`. -/
def time : IO Bytes := do
  let seconds := (← Std.Time.Timestamp.now).toSecondsSinceUnixEpoch
  let now := Std.Time.PlainDateTime.ofWallTime (.ofSeconds seconds)
  return padded 4 now.date.year ++ bytes "-" ++ padded 2 now.date.month.val ++ bytes "-" ++
    padded 2 now.date.day.val ++ bytes "T" ++ padded 2 now.time.hour.val ++ bytes ":" ++
    padded 2 now.time.minute.val ++ bytes ":" ++ padded 2 now.time.second.val ++ bytes "Z"

def readInput : IO Input := do
  try return .text (← IO.FS.readBinFile "/dev/stdin").toList
  catch e => return .failing (ofText (toString e))

def invocation (arguments : List Bytes) : IO Invocation := do
  let found ← readVariables
  let workingDirectory := ofText (toString (← IO.currentDir))
  let unseen : Invocation :=
    { arguments := arguments
      environment := fun name => found.lookup name
      -- files are worked on one after the other, so any number will do
      processors := 1
      workingDirectory := workingDirectory
      disk := Disk.store .empty
      input := .text []
      outputOpen := true
      cancelled := false
      time := ← time
      elapsed := .text (bytes "0s") }
  match Settings.load unseen.environment unseen.processors arguments with
  | .error _ => return unseen
  | .ok (settings, targets) =>
    let root := unseen.root settings
    let mut findings : Findings := ⟨.empty, []⟩
    for target in targets do
      findings ← findings.addAround (Path.below root (Store.resolve target))
      findings ← findings.addAround (Path.below root target)
    let reads := targets.contains inputTarget
    let input ← if reads then readInput else pure unseen.input
    return { unseen with disk := findings.disk, input := input }

end SchemaDoc.Program

def main (arguments : List String) : IO UInt32 := do
  let invocation ← SchemaDoc.Program.invocation (arguments.map SchemaDoc.Program.ofText)
  let completion := invocation.run
  (← IO.getStdout).write ⟨completion.output.toArray⟩
  (← IO.getStderr).write ⟨completion.errors.toArray⟩
  return completion.status.toUInt32
