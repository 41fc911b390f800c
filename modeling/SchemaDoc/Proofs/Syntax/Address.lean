import Mathlib.Data.List.Basic
import Mathlib.Tactic.Choose
import SchemaDoc.Proofs.Syntax.Part

/-! # Addresses in a tree

Equal nodes may stand in several places of a tree, so a place is told by its
address: the numbers of the children that lead to it. A walk goes over all
addresses of a tree, each of them once, and comes to a node when it has been at
all nodes beneath it.
-/

namespace SchemaDoc

variable {L : Type} {n m : Node L}

namespace Node

/-- The node at an address. -/
def at? : Node L → List Nat → Option (Node L)
  | n, [] => some n
  | n, i :: rest => n.children[i]?.bind fun m => m.at? rest

@[simp] theorem at?_nil (n : Node L) : n.at? [] = some n := rfl

theorem at?_cons (n : Node L) (i : Nat) (rest : List Nat) :
    n.at? (i :: rest) = n.children[i]?.bind fun m => m.at? rest := rfl

theorem length_walk_lt (h : m ∈ n.children) : m.walk.length < n.walk.length := by
  have hsublist : m.walk.Sublist (n.children.flatMap walk) :=
    List.sublist_flatten_of_mem (List.mem_map_of_mem h)
  rw [walk_eq n, List.length_append, List.length_singleton]
  exact Nat.lt_succ_of_le hsublist.length_le

/-- Induction from the children of a node to the node. -/
theorem children_induction {P : Node L → Prop} (h : ∀ n, (∀ m ∈ n.children, P m) → P n)
    (n : Node L) : P n := by
  induction hn : n.walk.length using Nat.strongRecOn generalizing n with
  | ind k ih =>
    subst hn
    exact h n fun m hm => ih _ (length_walk_lt hm) m rfl

/-- What is beneath a node of a tree is in the tree. -/
theorem mem_walk_trans {k : Node L} (hm : m ∈ n.walk) (hk : k ∈ m.walk) : k ∈ n.walk := by
  induction n using children_induction with
  | h n ih =>
    rw [walk_eq, List.mem_append, List.mem_flatMap, List.mem_singleton] at hm
    rcases hm with ⟨c, hc, hm⟩ | rfl
    · rw [walk_eq, List.mem_append, List.mem_flatMap]
      exact .inl ⟨c, hc, ih c hc hm⟩
    · exact hk

/-- The nodes stand at the addresses, one after the other. These are all addresses of the tree,
each of them once, and every one stands behind those beneath it. -/
structure Visits (n : Node L) (addresses : List (List Nat)) (nodes : List (Node L)) : Prop where
  nodes_at : addresses.map n.at? = nodes.map some
  mem_iff : ∀ p, p ∈ addresses ↔ (n.at? p).isSome
  once : addresses.Nodup
  beneath_first : addresses.Pairwise fun p q => ¬ p <+: q

section Below

variable {f : Node L → List (List Nat)}

/-- The addresses that lead through one of the children, when `f` has those within each child. -/
def addressesBelow (f : Node L → List (List Nat)) (n : Node L) : List (List Nat) :=
  n.children.zipIdx.flatMap fun e => (f e.1).map (e.2 :: ·)

theorem cons_mem_addressesBelow {i : Nat} {rest : List Nat} :
    i :: rest ∈ addressesBelow f n ↔ ∃ m, n.children[i]? = some m ∧ rest ∈ f m := by
  simp only [addressesBelow, List.mem_flatMap, List.mem_zipIdx_iff_getElem?, List.mem_map]
  constructor
  · rintro ⟨⟨m, j⟩, hget, q, hq, heq⟩
    obtain ⟨rfl, rfl⟩ := List.cons.inj heq
    exact ⟨m, hget, hq⟩
  · rintro ⟨m, hget, hrest⟩
    exact ⟨(m, i), hget, rest, hrest, rfl⟩

theorem ne_nil_of_mem_addressesBelow {p : List Nat} (h : p ∈ addressesBelow f n) : p ≠ [] := by
  obtain ⟨e, -, hp⟩ := List.mem_flatMap.mp h
  obtain ⟨rest, -, rfl⟩ := List.mem_map.mp hp
  exact List.cons_ne_nil e.2 rest

variable (hf : ∀ m ∈ n.children, m.Visits (f m) m.walk)

include hf

theorem map_at?_addressesBelow :
    (addressesBelow f n).map n.at? = (n.children.flatMap walk).map some := by
  have hchildren : n.children.flatMap walk = n.children.zipIdx.flatMap fun e => e.1.walk := by
    rw [← List.flatMap_map Prod.fst walk, List.zipIdx_map_fst]
  rw [hchildren, addressesBelow, List.map_flatMap, List.map_flatMap]
  refine List.flatMap_congr fun e he => ?_
  have hget := List.mem_zipIdx_iff_getElem?.mp he
  rw [← (hf e.1 (List.mem_of_getElem? hget)).nodes_at, List.map_map]
  exact List.map_congr_left fun p _ => by simp [at?_cons, hget]

theorem addressesBelow_ordered : (addressesBelow f n).Pairwise fun p q => ¬ p <+: q := by
  have hnumbers : n.children.zipIdx.Pairwise fun a b => a.2 < b.2 := by
    rw [← List.pairwise_map (f := Prod.snd) (R := (· < ·)), List.zipIdx_map_snd]
    exact List.pairwise_lt_range'
  refine List.pairwise_flatMap.mpr ⟨fun e he => ?_, hnumbers.imp fun {a b} hlt p hp q hq => ?_⟩
  · have hget := List.mem_zipIdx_iff_getElem?.mp he
    rw [List.pairwise_map]
    exact (hf e.1 (List.mem_of_getElem? hget)).beneath_first.imp fun h => by simpa using h
  · obtain ⟨p, -, rfl⟩ := List.mem_map.mp hp
    obtain ⟨q, -, rfl⟩ := List.mem_map.mp hq
    rw [List.cons_prefix_cons]
    omega

theorem cons_mem_addressesBelow_iff {i : Nat} {rest : List Nat} :
    i :: rest ∈ addressesBelow f n ↔ (n.at? (i :: rest)).isSome := by
  rw [at?_cons, cons_mem_addressesBelow]
  cases hget : n.children[i]? with
  | none => simp
  | some m => simp [(hf m (List.mem_of_getElem? hget)).mem_iff]

end Below

/-- A walk goes over the whole tree of a node. -/
theorem exists_visits (n : Node L) : ∃ addresses, n.Visits addresses n.walk := by
  induction n using children_induction with
  | h n ih =>
    choose! f hf using ih
    have hordered : (addressesBelow f n ++ [[]]).Pairwise fun p q => ¬ p <+: q := by
      refine List.pairwise_append.mpr ⟨addressesBelow_ordered hf, by simp, fun p hp q hq => ?_⟩
      rw [List.mem_singleton.mp hq, List.prefix_nil]
      exact ne_nil_of_mem_addressesBelow hp
    refine ⟨addressesBelow f n ++ [[]], ?_, fun p => ?_, ?_, hordered⟩
    · rw [List.map_append, map_at?_addressesBelow hf, walk_eq, List.map_append]
      rfl
    · cases p with
      | nil => simp
      | cons i rest => simp [cons_mem_addressesBelow_iff hf]
    · exact hordered.imp fun {p q} h (heq : p = q) => h (heq ▸ List.prefix_refl p)

end Node

end SchemaDoc
