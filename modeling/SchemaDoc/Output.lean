import SchemaDoc.Data.Json
import SchemaDoc.Text.Quoted
import SchemaDoc.Tree
import SchemaDoc.Yaml.Write

/-! # Output formats

Data is written as JSON, as YAML or not at all. Writing either yields the whole
text or a problem; no text is ever cut off by a problem.
-/

namespace SchemaDoc

inductive OutputFormat where
  | json
  | yaml
  | none
deriving DecidableEq, Repr

inductive OutputProblem where
  | unknownFormat (name : Bytes)
  | infiniteNumber (negative : Bool)
deriving DecidableEq, Repr

namespace OutputProblem

def message : OutputProblem → Bytes
  | .unknownFormat name => bytes "unknown output format " ++ Quoted.text name
  | .infiniteNumber negative =>
    bytes "json: unsupported value: " ++ (if negative then bytes "-Inf" else bytes "+Inf")

end OutputProblem

namespace OutputFormat

def ofName (name : Bytes) : Except OutputProblem OutputFormat :=
  if name = bytes "json" then .ok .json
  else if name = bytes "yaml" then .ok .yaml
  else if name = bytes "none" then .ok .none
  else .error (.unknownFormat name)

/-- The text of data; the format `none` has the empty text for all data. -/
def write (f : OutputFormat) (d : Data) : Except OutputProblem Bytes :=
  match f with
  | .none => .ok []
  | .yaml => .ok (Yaml.writeDocument d)
  | .json => match Json.writeIndented d with
    | .ok text => .ok text
    | .error e => .error (.infiniteNumber e.negative)

end OutputFormat

/-- The text of a document in the format with a name. -/
def Document.write (formatName : Bytes) (d : Document Span) : Except OutputProblem Bytes :=
  match OutputFormat.ofName formatName with
  | .error p => .error p
  | .ok f => f.write d.tree

end SchemaDoc
