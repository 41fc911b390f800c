import SchemaDoc.Grammar.Definitions

/-! # Faults

A fault is a failure that is shown to a user: where it arose, a code for its kind
and a message. Other failures are plain messages; they become faults when they
are wrapped, and a wrapped failure stays visible among the causes.
-/

namespace SchemaDoc

/-- Where a fault arose. Line zero means that only the resource is known. -/
structure Place where
  uri : Bytes
  offset : Int
  line : Int
  column : Int
deriving DecidableEq, Repr

namespace Place

def ofUri (uri : Bytes) : Place := ⟨uri, 0, 0, 0⟩

/-- The place of an offset of a source. An offset outside of the body is kept, but its line and
column are those of the nearest one inside. -/
def ofOffset (s : Source) (offset : Int) : Place :=
  let position := s.position offset
  ⟨s.name, offset, position.line, position.column⟩

def text (p : Place) : Bytes :=
  if p.line = 0 then p.uri
  else p.uri ++ bytes ":" ++ Bytes.signed p.line ++ bytes ":" ++ Bytes.signed p.column

end Place

/-- A failure with its place, code and message, and the texts of the failures that it wraps, the
outermost first. -/
structure Fault where
  place : Place
  code : Bytes
  message : Bytes
  causes : List Bytes
deriving DecidableEq, Repr

namespace Code

def unknown : Bytes := bytes "M0000"

def fileNotFound : Bytes := bytes "M0001"

def permissionDenied : Bytes := bytes "M0003"

def expected : Bytes := bytes "S0001"

def unexpectedCharacter : Bytes := bytes "S0002"

def unexpectedNode : Bytes := bytes "S0003"

def inputFieldArguments : Bytes := bytes "S0004"

def invalidNumber : Bytes := bytes "S0005"

def invalidString : Bytes := bytes "S0006"

end Code

def Grammar.Cause.code : Grammar.Cause → Bytes
  | .missing _ _ => Code.expected
  | .missingToken _ _ => Code.expected
  | .unexpectedCharacter _ => Code.unexpectedCharacter
  | .unexpectedNode _ => Code.unexpectedNode
  | .inputFieldArguments _ => Code.inputFieldArguments
  | .invalidNumber _ => Code.invalidNumber
  | .invalidString _ => Code.invalidString

/-- Any failure. -/
inductive Failure where
  | plain (message : Bytes)
  | fault (fault : Fault)
deriving DecidableEq, Repr

namespace Fault

def text (f : Fault) : Bytes := f.place.text ++ bytes " -- " ++ f.code ++ bytes ": " ++ f.message

def new (place : Place) (code message : Bytes) : Fault := ⟨place, code, message, []⟩

/-- The fault of a syntax error in a source. -/
def ofSyntaxError (s : Source) (e : Grammar.SyntaxError) : Fault :=
  new (.ofOffset s e.offset) e.cause.code e.cause.message

/-- The fault of something that is no node of a document, at its offset if that is known. -/
def unexpectedNode (source : Source) (offset : Option Int) (kind : Kind) : Fault :=
  let cause := Grammar.Cause.unexpectedNode kind
  new ((offset.map (Place.ofOffset source)).getD (.ofUri [])) cause.code cause.message

end Fault

namespace Failure

def text : Failure → Bytes
  | .plain message => message
  | .fault f => f.text

/-- The message without place and code. -/
def message : Failure → Bytes
  | .plain message => message
  | .fault f => f.message

def causes : Failure → List Bytes
  | .plain _ => []
  | .fault f => f.causes

/-- A failure under a new place and code; its message is kept. -/
def wrap (place : Place) (code : Bytes) (f : Failure) : Fault :=
  ⟨place, code, f.message, f.text :: f.causes⟩

def wrapUnknown (place : Place) (f : Failure) : Fault := f.wrap place Code.unknown

/-- A fault as it is, any other failure wrapped under the name of its resource. -/
def asFault (uri : Bytes) : Failure → Fault
  | .fault f => f
  | .plain message => (Failure.plain message).wrapUnknown (.ofUri uri)

end Failure

/-- The document of a source, or the fault that ends its reading. -/
def Source.parse (s : Source) : Except Fault (Document Span) :=
  match Document.parse s.body with
  | .ok d => .ok d
  | .error e => .error (.ofSyntaxError s e)

end SchemaDoc
