import SchemaDoc.Text.Bytes

/-! # Paths

A path is cleaned without looking at any files: empty components and dots are
dropped and a pair of dots takes its predecessor with it. Nothing stands above
the root, so a path from the root never leads out of it.
-/

namespace SchemaDoc.Path

def dot : Bytes := bytes "."

def dots : Bytes := bytes ".."

/-- The components behind those read so far, which are given the latest first. A pair of dots with
nothing to take is kept in a relative path and dropped at the root. -/
def cleanFrom (rooted : Bool) (read : List Bytes) : List Bytes → List Bytes
  | [] => read.reverse
  | c :: rest =>
    if c = [] || c = dot then cleanFrom rooted read rest
    else if c = dots then
      match read with
      | [] => cleanFrom rooted (if rooted then [] else [dots]) rest
      | last :: before =>
        if last = dots then cleanFrom rooted (dots :: read) rest else cleanFrom rooted before rest
    else cleanFrom rooted (c :: read) rest

/-- The components of a path taken from the root. -/
def components (p : Bytes) : List Bytes := cleanFrom true [] (Bytes.split 0x2F p)

def render (cs : List Bytes) : Bytes := 0x2F :: Bytes.join [0x2F] cs

def rooted (p : Bytes) : Bytes := render (components p)

def isAbsolute (p : Bytes) : Bool := Bytes.startsWith [0x2F] p

/-- A path cleaned as it is, relative or not. -/
def clean (p : Bytes) : Bytes :=
  if isAbsolute p then rooted p
  else match cleanFrom false [] (Bytes.split 0x2F p) with
    | [] => dot
    | cs => Bytes.join [0x2F] cs

def below (base p : Bytes) : Bytes := clean (base ++ 0x2F :: p)

def absolute (workingDirectory p : Bytes) : Bytes :=
  if isAbsolute p then rooted p else below workingDirectory p

/-- The directory of a clean path from the root. -/
def parent (p : Bytes) : Bytes := render (components p).dropLast

def name (p : Bytes) : Bytes := (p.reverse.takeWhile (· != 0x2F)).reverse

/-- The last component from its last point on; empty without a point. -/
def extension (p : Bytes) : Bytes :=
  let name := name p
  match name.reverse.dropWhile (· != 0x2E) with
  | [] => []
  | before => name.drop (before.length - 1)

end SchemaDoc.Path
