import Mathlib.Data.List.Nodup
import Mathlib.Data.List.Sort
import SchemaDoc.Data.Basic

/-! # The order of entries

Two pieces of data are the same when they agree after sorting the entries of all
their maps. Sorting is stable, so the entry that a key finds in a map does not
depend on how the entries are ordered.
-/

namespace SchemaDoc

namespace Bytes

theorem le_trans (a b c : Bytes) : le a b = true → le b c = true → le a c = true :=
  Std.TransCmp.isLE_trans

theorem le_total (a b : Bytes) : (le a b || le b a) = true := by
  have hswap : compare b a = (compare a b).swap := Std.OrientedCmp.eq_swap
  rw [le, le, hswap]
  cases compare a b <;> rfl

theorem le_antisymm {a b : Bytes} (hab : le a b = true) (hba : le b a = true) : a = b := by
  have hswap : compare b a = (compare a b).swap := Std.OrientedCmp.eq_swap
  rw [le] at hab hba
  rw [hswap] at hba
  have heq : compare a b = .eq := by
    cases h : compare a b with
    | lt => rw [h] at hba; nomatch hba
    | eq => rfl
    | gt => rw [h] at hab; nomatch hab
  exact Std.LawfulEqOrd.eq_of_compare heq

theorem le_refl (a : Bytes) : le a a = true := by
  simpa using le_total a a

theorem compare_eq_lt_iff {a b : Bytes} : compare a b = .lt ↔ a < b := by
  induction a generalizing b with
  | nil => cases b <;> simp [compare, List.compareLex]
  | cons x a ih =>
    cases b with
    | nil => simp [compare, List.compareLex]
    | cons y b =>
      have hcons : compare (x :: a) (y :: b) = (compare x y).then (compare a b) :=
        List.compareLex_cons_cons
      rw [hcons, Ordering.then_eq_lt, ih, List.cons_lt_cons_iff, Std.compare_eq_lt,
        Std.compare_eq_iff_eq]

end Bytes

namespace Data

variable {α β : Type}

variable {le le' : Bytes → Bytes → Bool}

theorem insertEntry_eq (le : Bytes → Bytes → Bool) (e : Bytes × α) (sorted : List (Bytes × α)) :
    insertEntry le e sorted = sorted.orderedInsert (fun a b => le b.1 a.1) e := by
  induction sorted with
  | nil => rfl
  | cons last before ih => rw [insertEntry, ih, List.orderedInsert_cons]

/-- The entries are inserted from the right, so the library's sort goes over them backwards. -/
theorem sortEntries_eq (le : Bytes → Bytes → Bool) (entries : List (Bytes × α)) :
    sortEntries le entries =
      (entries.reverse.insertionSort fun a b => le b.1 a.1).reverse := by
  rw [sortEntries, List.insertionSort, List.foldr_reverse]
  simp only [insertEntry_eq]

theorem sortEntries_perm (le : Bytes → Bytes → Bool) (entries : List (Bytes × α)) :
    (sortEntries le entries).Perm entries := by
  rw [sortEntries_eq]
  exact (List.reverse_perm _).trans ((List.perm_insertionSort _ _).trans (List.reverse_perm _))

theorem sortEntries_ne_nil (le : Bytes → Bytes → Bool) {entries : List (Bytes × α)}
    (hne : entries ≠ []) : sortEntries le entries ≠ [] := by
  have hperm := sortEntries_perm le entries
  intro hnil
  rw [hnil] at hperm
  exact hne (List.nil_perm.mp hperm)

theorem map_sortEntries (f : α → β) (entries : List (Bytes × α)) :
    (sortEntries le entries).map (fun e => (e.1, f e.2)) =
      sortEntries le (entries.map fun e => (e.1, f e.2)) := by
  rw [sortEntries_eq, sortEntries_eq, List.map_reverse, ← List.map_reverse (l := entries)]
  exact congrArg List.reverse (List.map_insertionSort _ _ _ _ fun _ _ _ _ => Iff.rfl)

/-- Only the order of the keys that are there matters. -/
theorem sortEntries_congr {entries : List (Bytes × α)}
    (h : ∀ a ∈ entries, ∀ b ∈ entries, le a.1 b.1 = le' a.1 b.1) :
    sortEntries le entries = sortEntries le' entries := by
  have hmap := List.map_insertionSort (fun a b : Bytes × α => le b.1 a.1)
    (fun a b => le' b.1 a.1) id entries.reverse fun a ha b hb => by
      rw [id, id, h b (List.mem_reverse.mp hb) a (List.mem_reverse.mp ha)]
  rw [List.map_id, List.map_id] at hmap
  rw [sortEntries_eq, sortEntries_eq, hmap]

theorem pairwise_sortEntries (htrans : ∀ a b c, le a b = true → le b c = true → le a c = true)
    (htotal : ∀ a b, (le a b || le b a) = true) (entries : List (Bytes × α)) :
    (sortEntries le entries).Pairwise fun a b => le a.1 b.1 = true := by
  let r : Bytes × α → Bytes × α → Prop := fun a b => le b.1 a.1
  have : Std.Total r := ⟨fun a b => by simpa [r, or_comm] using htotal a.1 b.1⟩
  have : IsTrans (Bytes × α) r := ⟨fun a b c hab hbc => htrans c.1 b.1 a.1 hbc hab⟩
  rw [sortEntries_eq, List.pairwise_reverse]
  exact List.pairwise_insertionSort r entries.reverse

/-- The order in which entries come makes no difference when no two of them have one key. -/
theorem sortEntries_eq_of_perm (htrans : ∀ a b c, le a b = true → le b c = true → le a c = true)
    (htotal : ∀ a b, (le a b || le b a) = true) {entries entries' : List (Bytes × α)}
    (hanti : ∀ a ∈ entries, ∀ b ∈ entries, le a.1 b.1 = true → le b.1 a.1 = true → a.1 = b.1)
    (hnodup : (entries.map Prod.fst).Nodup) (hperm : entries'.Perm entries) :
    sortEntries le entries' = sortEntries le entries := by
  refine List.Perm.eq_of_pairwise ?_ (pairwise_sortEntries htrans htotal _)
    (pairwise_sortEntries htrans htotal _)
    ((sortEntries_perm le entries').trans (hperm.trans (sortEntries_perm le entries).symm))
  intro a b ha hb hab hba
  have ha := hperm.mem_iff.mp ((sortEntries_perm le _).mem_iff.mp ha)
  have hb := (sortEntries_perm le _).mem_iff.mp hb
  exact List.inj_on_of_nodup_map hnodup ha hb (hanti a ha b hb hab hba)

/-- The entries of one key stay in the order in which they were. -/
theorem filter_sortEntries (key : Bytes) (entries : List (Bytes × α)) :
    (sortEntries Bytes.le entries).filter (key == ·.1) = entries.filter (key == ·.1) := by
  have hsorted : (entries.filter (key == ·.1)).reverse.Pairwise
      fun a b => Bytes.le b.1 a.1 = true := by
    apply List.pairwise_of_forall_mem_list
    intro a ha b hb
    rw [List.mem_reverse, List.mem_filter, beq_iff_eq] at ha hb
    rw [← ha.2, ← hb.2]
    exact Bytes.le_refl key
  have hinserted := List.sublist_insertionSort hsorted List.filter_sublist.reverse
  have hsub := hinserted.reverse.filter (key == ·.1)
  rw [List.reverse_reverse, ← sortEntries_eq, List.filter_filter,
    List.filter_congr (fun a _ => Bool.and_self _)] at hsub
  exact (hsub.eq_of_length ((sortEntries_perm Bytes.le entries).filter _).length_eq.symm).symm

theorem lookup_eq_head? (key : Bytes) (entries : List (Bytes × α)) :
    entries.lookup key = ((entries.filter (key == ·.1)).head?).map Prod.snd := by
  induction entries with
  | nil => rfl
  | cons e entries ih =>
    rw [List.lookup_cons, List.filter_cons, ih]
    cases key == e.1 <;> rfl

@[simp] theorem lookup_sortEntries (key : Bytes) (entries : List (Bytes × α)) :
    (sortEntries Bytes.le entries).lookup key = entries.lookup key := by
  rw [lookup_eq_head?, filter_sortEntries, ← lookup_eq_head?]

mutual

/-- The data with the entries of all its maps sorted by their keys. -/
def sorted : Data → Data
  | .list items => .list (sortedItems items)
  | .map entries => .map (sortEntries Bytes.le (sortedEntries entries))
  | .null => .null
  | .boolean b => .boolean b
  | .integer n => .integer n
  | .number x => .number x
  | .text s => .text s

def sortedItems : List Data → List Data
  | [] => []
  | item :: items => item.sorted :: sortedItems items

def sortedEntries : List (Bytes × Data) → List (Bytes × Data)
  | [] => []
  | (key, value) :: entries => (key, value.sorted) :: sortedEntries entries

end

@[simp] theorem sortedItems_eq (items : List Data) : sortedItems items = items.map sorted := by
  induction items with
  | nil => rfl
  | cons item items ih => rw [sortedItems, ih, List.map_cons]

@[simp] theorem sortedEntries_eq (entries : List (Bytes × Data)) :
    sortedEntries entries = entries.map fun e => (e.1, e.2.sorted) := by
  induction entries with
  | nil => rfl
  | cons e entries ih => rw [sortedEntries, ih, List.map_cons]

end Data

end SchemaDoc
