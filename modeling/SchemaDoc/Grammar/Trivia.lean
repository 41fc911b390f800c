import SchemaDoc.Text.Character

/-! # Trivia

Line feeds, commas and white space have no meaning in a document beyond keeping
tokens apart. Leading trivia is read from the left, trailing trivia is removed
from the right; a byte that belongs to no character is never trivia.
-/

namespace SchemaDoc.Grammar

def isNewline (code : Nat) : Bool := code == 0x0A

def isComma (code : Nat) : Bool := code == 0x2C

/-- White space without meaning, other than the line feed. -/
def isWhitespace (code : Nat) : Bool :=
  code == 0x20 || code == 0x0C || code == 0x0D || code == 0x09 || code == 0x0B ||
  code == 0xA0 || code == 0x1680 || code == 0x180E || code == 0x2028 || code == 0x2029 ||
  code == 0x202F || code == 0x205F || code == 0x3000 || code == 0xFEFF ||
  (0x2000 ≤ code && code ≤ 0x200A)

def isTrivia (code : Nat) : Bool := isNewline code || isComma code || isWhitespace code

/-- The number of bytes of leading trivia behind the first `pending` bytes, those included. -/
def triviaLengthFrom : (pending : Nat) → Bytes → Nat
  | _, [] => 0
  | pending + 1, _ :: s => triviaLengthFrom pending s + 1
  | 0, b :: s =>
    let r := Character.first (b :: s)
    if isTrivia r.code then triviaLengthFrom (r.width - 1) s + 1 else 0

def triviaLength (s : Bytes) : Nat := triviaLengthFrom 0 s

/-- A reversed text without the trivia at its left end. -/
def dropTriviaOfReverse : (pending : Nat) → Bytes → Bytes
  | _, [] => []
  | pending + 1, _ :: s => dropTriviaOfReverse pending s
  | 0, b :: s =>
    let r := Character.firstOfReverse (b :: s)
    if isTrivia r.code then dropTriviaOfReverse (r.width - 1) s else b :: s

def trimRight (s : Bytes) : Bytes := (dropTriviaOfReverse 0 s.reverse).reverse

/-- The end of the span from `start` to `stop` of a text without its trailing trivia. -/
def trimmedEnd (body : Bytes) (start stop : Nat) : Nat :=
  start + (trimRight ((body.drop start).take (stop - start))).length

end SchemaDoc.Grammar
