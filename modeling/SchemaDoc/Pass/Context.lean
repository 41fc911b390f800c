import SchemaDoc.Log
import SchemaDoc.Pass.Printed
import SchemaDoc.Settings.Load
import SchemaDoc.Store.Basic

/-! # What a pass works with

Besides the store that is read and the streams of the process, the order in
which the entries of maps are found is a matter of the world around a pass.
-/

namespace SchemaDoc

/-- What is left to read on standard input, or why it cannot be read. -/
inductive Input where
  | text (rest : Bytes)
  | failing (message : Bytes)
deriving DecidableEq, Repr

namespace Input

def body : Input → Except Fault Bytes
  | .text rest => .ok rest
  | .failing message => .error ((Failure.plain message).wrapUnknown (.ofUri inputTarget))

/-- What is left then. An input that cannot be read stays so. -/
def used : Input → Input
  | .text _ => .text []
  | .failing message => .failing message

end Input

structure PassContext where
  store : Store
  input : Input
  /-- Whether standard output takes what is written. -/
  outputOpen : Bool
  /-- Whether the work was called off before it began. -/
  cancelled : Bool
  log : Log
  /-- The time of log entries. -/
  time : Bytes
  /-- The time that a file took, as log entries tell it. -/
  elapsed : Data
  order : Pass.MapOrder := .listed

end SchemaDoc
