import SchemaDoc.Description
import SchemaDoc.Settings.Basic

/-! # Printing documents

Documents are printed one after the other, each as its tree and, if asked for,
its descriptions. The first text that cannot be written ends the printing; what
was printed before it stays. Descriptions are printed as a map, whose entries
are found in an order that nothing fixes.
-/

namespace SchemaDoc.Pass

inductive PrintProblem where
  | output (problem : OutputProblem)
  | closed
deriving DecidableEq, Repr

def PrintProblem.message : PrintProblem → Bytes
  | .output problem => problem.message
  | .closed => bytes "stdout closed"

def listed (path : Bytes) (ds : Descriptions) : List (Bytes × Data) :=
  [(bytes "file", .text path), (bytes "descriptions", ds.toData)]

/-- The same entries in some order, with the descriptions in some order as well. -/
def Enumerates (path : Bytes) (ds : Descriptions) (entries : List (Bytes × Data)) : Prop :=
  ∃ ds' : Descriptions, ds'.Perm ds ∧ entries.Perm (listed path ds')

/-- In which order the entries are found each time that a file is printed; the times are counted.
Trees are maps, too, but `Document.write_unordered` shows that their texts have no such order. -/
structure MapOrder where
  entries : (time : Nat) → (path : Bytes) → (ds : Descriptions) → List (Bytes × Data)
  enumerates : ∀ time path ds, Enumerates path ds (entries time path ds)

namespace MapOrder

def listed : MapOrder := ⟨fun _ => Pass.listed, fun _ _ ds => ⟨ds, .refl _, .refl _⟩⟩

def behind (n : Nat) (o : MapOrder) : MapOrder :=
  ⟨fun time => o.entries (n + time), fun time => o.enumerates (n + time)⟩

end MapOrder

structure Printed where
  text : Bytes
  problem : Option PrintProblem
deriving DecidableEq, Repr

namespace Printed

/-- Descriptions are shown even where trees are not. -/
def descriptionFormat : OutputFormat → OutputFormat
  | .none => .json
  | f => f

def texts (s : Settings) (f : OutputFormat) (o : MapOrder) (time : Nat) (path : Bytes)
    (d : Document Span) : List (Except OutputProblem Bytes) :=
  f.write d.tree ::
    if s.descriptions then
      [(descriptionFormat f).write (.map (o.entries time path (.ofDocument d)))]
    else []

/-- Texts one after the other, up to the first that cannot be written. Nothing to write is written
even on a closed output. -/
def ofTexts (outputOpen : Bool) : List (Except OutputProblem Bytes) → Printed
  | [] => ⟨[], none⟩
  | .error p :: _ => ⟨[], some (.output p)⟩
  | .ok text :: rest =>
    if !outputOpen && !text.isEmpty then ⟨[], some .closed⟩
    else
      let printed := ofTexts outputOpen rest
      ⟨text ++ printed.text, printed.problem⟩

/-- All results. The format must be known even if there are none. -/
def ofResults (s : Settings) (o : MapOrder) (outputOpen : Bool)
    (results : List (Bytes × Document Span)) : Printed :=
  match OutputFormat.ofName s.output with
  | .error p => ⟨[], some (.output p)⟩
  | .ok f => ofTexts outputOpen <|
    results.zipIdx.flatMap fun ((path, d), time) => texts s f o time path d

end Printed

end SchemaDoc.Pass
