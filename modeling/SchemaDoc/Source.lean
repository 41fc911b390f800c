import SchemaDoc.Text.Character

/-! # Sources and places in them

A source is a named text. Places are byte offsets; a position is what a reader
is shown for an offset, a line and a column that both count from one. Columns
count characters, and an offset outside the text counts as the nearest end.
-/

namespace SchemaDoc

structure Source where
  name : Bytes
  body : Bytes
deriving DecidableEq, Repr

/-- A line and a column, both counted from one. -/
structure Position where
  line : Nat
  column : Nat
deriving DecidableEq, Repr

/-- The bytes from `start` up to, not including, `stop`. -/
structure Span where
  start : Nat
  stop : Nat
deriving DecidableEq, Repr

namespace Span

def shift (n : Nat) (s : Span) : Span := ⟨s.start + n, s.stop + n⟩

def contains (outer inner : Span) : Bool := outer.start ≤ inner.start && inner.stop ≤ outer.stop

def text (s : Span) (body : Bytes) : Bytes := (body.drop s.start).take (s.stop - s.start)

end Span

namespace Source

def defaultName : Bytes := bytes "GraphQL"

/-- A source under `name`, or under the default name when it is empty. -/
def named (name body : Bytes) : Source := ⟨if name.isEmpty then defaultName else name, body⟩

/-- The text behind the last line feed. -/
def lastLine (s : Bytes) : Bytes := (s.reverse.takeWhile (· != 0x0A)).reverse

/-- The position just behind a text that starts at line one, column one. -/
def positionAfter (head : Bytes) : Position :=
  ⟨head.count 0x0A + 1, (Character.list (lastLine head)).length + 1⟩

def position (s : Source) (offset : Int) : Position := positionAfter (s.body.take offset.toNat)

end Source

end SchemaDoc
