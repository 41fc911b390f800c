import SchemaDoc.Grammar.Lexeme
import SchemaDoc.Grammar.Trivia
import SchemaDoc.Syntax.Basic
import SchemaDoc.Syntax.Kind
import SchemaDoc.Text.Quoted

/-! # Rules of the grammar

A rule looks at the text ahead of a cursor. It matches and moves the cursor on,
or it does not match, or it fails: a failure ends the whole reading, whatever
alternatives are left. Rules see nothing of the text behind the cursor.
-/

namespace SchemaDoc.Grammar

/-- A place in a text: its offset and the text from there on. -/
structure Cursor where
  offset : Nat
  rest : Bytes
deriving DecidableEq, Repr

/-- What stands at a place instead of what was expected. -/
inductive Found where
  | endOfText
  | character (code : Nat)
deriving DecidableEq, Repr

/-- The constructs that a failure can name as missing. -/
inductive Construct where
  | objectName
  | definitionName
  | innerType
  | memberType
  | value
  | unionMember
  | objectDefinition
deriving DecidableEq, Repr

inductive Cause where
  | missing (construct : Construct) (found : Found)
  | missingToken (token : Bytes) (found : Found)
  | unexpectedCharacter (found : Found)
  | unexpectedNode (kind : Kind)
  | inputFieldArguments (field : Bytes)
  | invalidNumber (literal : Bytes)
  | invalidString (literal : Bytes)
deriving DecidableEq, Repr

structure SyntaxError where
  offset : Nat
  cause : Cause
deriving DecidableEq, Repr

/-- What becomes of a rule. Without a match it gives a cursor back, and its caller goes on there. -/
inductive Outcome (α : Type) where
  | matched (value : α) (next : Cursor)
  | noMatch (back : Cursor)
  | failed (error : SyntaxError)

abbrev Rule (α : Type) := Cursor → Outcome α

def Found.text : Found → Bytes
  | .endOfText => bytes "<EOF>"
  | .character code => Quoted.text (Character.encode code)

def Construct.label : Construct → Bytes
  | .objectName => bytes "name"
  | .definitionName => bytes "Name"
  | .innerType => bytes "Type"
  | .memberType => bytes "type"
  | .value => bytes "Value"
  | .unionMember => bytes "NamedType"
  | .objectDefinition => bytes "ObjectTypeDefinition"

namespace Cause

private def expected (what : Bytes) (found : Found) : Bytes :=
  bytes "Expected " ++ what ++ bytes " but got " ++ found.text

def message : Cause → Bytes
  | .missing construct found => expected construct.label found
  | .missingToken token found => expected (Quoted.text token) found
  | .unexpectedCharacter found =>
    bytes "Unexpected character " ++ found.text ++ bytes ", expected comment or definition"
  | .unexpectedNode kind => bytes "Unexpected node type " ++ kind.label
  | .inputFieldArguments field =>
    bytes "Input field " ++ Quoted.text field ++ bytes " must not declare arguments"
  | .invalidNumber literal => bytes "Invalid number " ++ literal
  | .invalidString literal => bytes "Invalid string " ++ literal

end Cause

namespace Cursor

def ofBody (body : Bytes) : Cursor := ⟨0, body⟩

def atOffset (body : Bytes) (offset : Nat) : Cursor := ⟨offset, body.drop offset⟩

def advance (c : Cursor) (n : Nat) : Cursor := ⟨c.offset + n, c.rest.drop n⟩

def isEnd (c : Cursor) : Bool := c.rest.isEmpty

def skipTrivia (c : Cursor) : Cursor := c.advance (triviaLength c.rest)

def found (c : Cursor) : Found :=
  match c.skipTrivia.rest with
  | [] => .endOfText
  | s => .character (Character.first s).code

/-- The cursor behind `token`, if the text goes on with it after trivia. -/
def literal? (token : Bytes) (c : Cursor) : Option Cursor :=
  let here := c.skipTrivia
  if Bytes.startsWith token here.rest then some (here.advance token.length) else none

/-- Like `literal?`, but a word is not split: no name goes on behind the token. -/
def keyword? (word : Bytes) (c : Cursor) : Option Cursor :=
  match literal? word c with
  | none => none
  | some next => match next.rest with
    | [] => some next
    | b :: _ => if isNameContinue b then none else some next

def lexeme? (l : Lexeme) (c : Cursor) : Option (Bytes × Cursor) :=
  let here := c.skipTrivia
  (l.length? here.rest).map fun n => (here.rest.take n, here.advance n)

def fail {α : Type} (c : Cursor) (cause : Cause) : Outcome α :=
  .failed ⟨c.skipTrivia.offset, cause⟩

end Cursor

namespace Outcome

variable {α β : Type}

def andThen (o : Outcome α) (f : α → Cursor → Outcome β) : Outcome β :=
  match o with
  | .matched a next => f a next
  | .noMatch back => .noMatch back
  | .failed e => .failed e

def map (f : α → β) (o : Outcome α) : Outcome β := o.andThen fun a next => .matched (f a) next

def orElse (o : Outcome α) (other : Unit → Outcome α) : Outcome α :=
  match o with
  | .noMatch _ => other ()
  | o => o

/-- A match is kept; without one the cursor that is given back is `c`. -/
def backTo (o : Outcome α) (c : Cursor) : Outcome α :=
  match o with
  | .noMatch _ => .noMatch c
  | o => o

/-- What a missing construct turns into: a match is kept, no match is a failure at the cursor that
is given back. -/
def require (o : Outcome α) (construct : Construct) : Outcome α :=
  match o with
  | .noMatch back => back.fail (.missing construct back.found)
  | o => o

end Outcome

def expect (token : Bytes) : Rule Unit := fun c =>
  match c.literal? token with
  | some next => .matched () next
  | none => c.fail (.missingToken token c.found)

/-- Run a rule between trivia. What it yields is given the span that it took, less the trivia at
its end. Without a match the trivia in front is given back as well. -/
def positioned {α : Type} (rule : Rule (Span → α)) : Rule α := fun c =>
  let start := c.skipTrivia
  ((rule start).andThen fun located next =>
    let taken := trimRight (start.rest.take (next.offset - start.offset))
    .matched (located ⟨start.offset, start.offset + taken.length⟩) next.skipTrivia).backTo c

def comment : Rule (Comment Span) := positioned fun c =>
  match c.lexeme? .comment with
  | some (text, next) => .matched (fun loc => ⟨loc, text⟩) next
  | none => .noMatch c

/-- What a list does with a comment: it becomes an element, or it is refused. -/
abbrev OnComment (ε : Type) := Comment Span → Except Kind ε

/-- Comments and members up to the first place where neither matches; `fuel` bounds their number. -/
def manyWithin {α ε : Type} (onComment : OnComment ε) (item : Rule α) (wrap : α → ε) :
    (fuel : Nat) → Rule (List ε)
  | 0, c => .matched [] c
  | fuel + 1, c =>
    match comment c with
    | .matched found next =>
      match onComment found with
      | .error kind => c.fail (.unexpectedNode kind)
      | .ok e => (manyWithin onComment item wrap fuel next).map (e :: ·)
    | .failed e => .failed e
    | .noMatch _ =>
      match item c with
      | .matched a next => (manyWithin onComment item wrap fuel next).map (wrap a :: ·)
      | .failed e => .failed e
      | .noMatch _ => .matched [] c

/-- A list in which comments may stand. Every element takes at least one byte, so the length of
the text ahead is fuel enough. -/
def many {α : Type} (item : Rule α) : Rule (List (Element Span α)) := fun c =>
  manyWithin (fun found => .ok (.comment found)) item .member (c.rest.length + 1) c

def manyOnly {α : Type} (item : Rule α) : Rule (List α) := fun c =>
  manyWithin (fun _ => .error .comment) item id (c.rest.length + 1) c

end SchemaDoc.Grammar
