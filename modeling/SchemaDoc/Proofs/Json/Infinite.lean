import SchemaDoc.Data.Json

/-! # Data that has no JSON

There is no JSON for an infinite number. Data is not written at all when it holds
one, at whatever depth, and is always written otherwise; the first infinite number
is the one that is told.
-/

namespace SchemaDoc

namespace Data

mutual

/-- The numbers in a piece of data at any depth, in the order in which they are written. -/
def numbers : Data → List Binary64
  | .number x => [x]
  | .list items => itemNumbers items
  | .map entries => entryNumbers entries
  | .null => []
  | .boolean _ => []
  | .integer _ => []
  | .text _ => []

def itemNumbers : List Data → List Binary64
  | [] => []
  | item :: items => item.numbers ++ itemNumbers items

def entryNumbers : List (Bytes × Data) → List Binary64
  | [] => []
  | (_, value) :: entries => value.numbers ++ entryNumbers entries

end

@[simp] theorem itemNumbers_eq (items : List Data) : itemNumbers items = items.flatMap numbers := by
  induction items with
  | nil => rfl
  | cons item items ih => rw [itemNumbers, ih, List.flatMap_cons]

@[simp] theorem entryNumbers_eq (entries : List (Bytes × Data)) :
    entryNumbers entries = entries.flatMap fun e => e.2.numbers := by
  induction entries with
  | nil => rfl
  | cons e entries ih => rw [entryNumbers, ih, List.flatMap_cons]

end Data

namespace Json

variable {l : Layout} {depth : Nat} {e : Infinite}

/-- The first infinite number among some, as a failure tells it. -/
def infinite? (xs : List Binary64) : Option Infinite :=
  (xs.find? Binary64.isInfinite).map fun x => ⟨x.negative⟩

theorem infinite?_append (xs ys : List Binary64) :
    infinite? (xs ++ ys) = (infinite? xs).or (infinite? ys) := by
  rw [infinite?, List.find?_append, infinite?, infinite?]
  cases xs.find? Binary64.isInfinite <;> rfl

theorem map_eq_error_iff {ε α β : Type} {x : Except ε α} {f : α → β} {e : ε} :
    x.map f = .error e ↔ x = .error e := by
  cases x <;> simp [Except.map]

/-- The first failure of two attempts is the one that counts. -/
theorem sequence_eq_error_iff {ε α β γ : Type} {x : Except ε α} {y : Except ε β} {f : α → β → γ}
    {a b : Option ε} (hx : ∀ e, x = .error e ↔ a = some e) (hy : ∀ e, y = .error e ↔ b = some e)
    {e : ε} : (x.bind fun first => y.map (f first)) = .error e ↔ a.or b = some e := by
  cases x with
  | error e' =>
    rw [(hx e').mp rfl, Option.some_or, Option.some.injEq, Except.bind, Except.error.injEq]
  | ok first =>
    have ha : a = none := Option.eq_none_iff_forall_ne_some.mpr fun e he => nomatch (hx e).mpr he
    rw [ha, Option.none_or, ← hy, Except.bind, map_eq_error_iff]

theorem writeItems_cons (l : Layout) (depth : Nat) (item : Data) (items : List Data) :
    writeItems l depth (item :: items) =
      (write l depth item).bind fun text => (writeItems l depth items).map (text :: ·) := by
  rw [writeItems]
  cases write l depth item <;> rfl

theorem writeEntries_cons (l : Layout) (depth : Nat) (key : Bytes) (value : Data)
    (entries : List (Bytes × Data)) :
    writeEntries l depth ((key, value) :: entries) =
      (write l depth value).bind fun text =>
        (writeEntries l depth entries).map ((key, text) :: ·) := by
  rw [writeEntries]
  cases write l depth value <;> rfl

theorem number_eq_error_iff {x : Binary64} : number l x = .error e ↔ infinite? [x] = some e := by
  cases h : x.isInfinite <;> simp [number, infinite?, h]

mutual

/-- Data cannot be written for the first infinite number in it, and for nothing else. -/
theorem write_eq_error_iff (l : Layout) (depth : Nat) (d : Data) {e : Infinite} :
    write l depth d = .error e ↔ infinite? d.numbers = some e := by
  match d with
  | .null => simp [write, Data.numbers, infinite?]
  | .boolean b => simp [write, Data.numbers, infinite?]
  | .integer n => simp [write, Data.numbers, infinite?]
  | .number x => exact number_eq_error_iff
  | .text s => simp [write, Data.numbers, infinite?]
  | .list items =>
    rw [write, map_eq_error_iff, Data.numbers]
    exact writeItems_eq_error_iff l (depth + 1) items
  | .map entries =>
    rw [write, map_eq_error_iff, Data.numbers]
    exact writeEntries_eq_error_iff l (depth + 1) entries

theorem writeItems_eq_error_iff (l : Layout) (depth : Nat) (items : List Data) {e : Infinite} :
    writeItems l depth items = .error e ↔ infinite? (Data.itemNumbers items) = some e := by
  match items with
  | [] => simp [writeItems, Data.itemNumbers, infinite?]
  | item :: items =>
    rw [writeItems_cons, Data.itemNumbers, infinite?_append]
    exact sequence_eq_error_iff (fun _ => write_eq_error_iff l depth item)
      fun _ => writeItems_eq_error_iff l depth items

theorem writeEntries_eq_error_iff (l : Layout) (depth : Nat) (entries : List (Bytes × Data))
    {e : Infinite} :
    writeEntries l depth entries = .error e ↔ infinite? (Data.entryNumbers entries) = some e := by
  match entries with
  | [] => simp [writeEntries, Data.entryNumbers, infinite?]
  | (key, value) :: entries =>
    rw [writeEntries_cons, Data.entryNumbers, infinite?_append]
    exact sequence_eq_error_iff (fun _ => write_eq_error_iff l depth value)
      fun _ => writeEntries_eq_error_iff l depth entries

end

end Json

end SchemaDoc
