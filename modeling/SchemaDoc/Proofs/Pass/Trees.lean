import Mathlib.Data.List.Perm.Basic
import SchemaDoc.Proofs.Pass.Descriptions
import SchemaDoc.Proofs.Tree.Shape
import SchemaDoc.Proofs.Writing

/-! # Printed trees and the order of keys

A tree is made of maps at every depth, whose entries may come in any order. All
keys in it are short and distinct, so neither format shows that order: data that
is the same after sorting is written in the same way.
-/

namespace SchemaDoc

open Data (sorted)

namespace Json

theorem toOption_write_eq_none_iff (l : Layout) (depth : Nat) (d : Data) :
    (write l depth d).toOption = none ↔ ∃ x ∈ d.numbers, x.isInfinite = true := by
  rw [← exists_infinite?_iff]
  have herror (e : Infinite) := write_eq_error_iff l depth d (e := e)
  cases h : write l depth d with
  | error e => simpa [h, Except.toOption] using ⟨e, (herror e).mp h⟩
  | ok text => simpa [h, Except.toOption] using fun e => (herror e).not.mp (by simp [h])

/-- The order of entries is not seen, nor does it decide whether there is a text. -/
theorem toOption_write_map_of_perm (l : Layout) (depth : Nat)
    {entries entries' : List (Bytes × Data)} (hnodup : (entries.map Prod.fst).Nodup) (hperm : entries'.Perm entries) :
    (write l depth (.map entries')).toOption = (write l depth (.map entries)).toOption := by
  by_cases h : ∃ x ∈ (Data.map entries).numbers, x.isInfinite = true
  · have h' : ∃ x ∈ (Data.map entries').numbers, x.isInfinite = true := by
      simpa only [Data.numbers, Data.entryNumbers_eq, (hperm.flatMap_right _).mem_iff] using h
    rw [(toOption_write_eq_none_iff l depth _).mpr h, (toOption_write_eq_none_iff l depth _).mpr h']
  · rw [write_map_eq_of_perm l depth ?_ hnodup hperm]
    intro e he
    have hvalue : (write l (depth + 1) e.2).toOption ≠ none := by
      rw [Ne, toOption_write_eq_none_iff]
      rintro ⟨x, hx, hinfinite⟩
      refine h ⟨x, ?_, hinfinite⟩
      rw [Data.numbers, Data.entryNumbers_eq]
      exact List.mem_flatMap.mpr ⟨e, he, hx⟩
    cases htext : write l (depth + 1) e.2 with
    | error p => exact absurd (by rw [htext]; rfl) hvalue
    | ok text => exact ⟨text, rfl⟩

theorem toOption_map {ε α β : Type} (x : Except ε α) (f : α → β) :
    (x.map f).toOption = x.toOption.map f := by
  cases x <;> rfl

theorem toOption_sequence {ε α β γ : Type} {x x' : Except ε α} {y y' : Except ε β}
    (f : α → β → γ) (hx : x.toOption = x'.toOption) (hy : y.toOption = y'.toOption) :
    (x.bind fun a => y.map (f a)).toOption = (x'.bind fun a => y'.map (f a)).toOption := by
  cases x <;> cases x' <;> cases y <;> cases y' <;>
    simp_all [Except.toOption, Except.bind, Except.map]

end Json

/-- Two pieces of data with the same texts, if they have any. -/
structure Data.SameTexts (d d' : Data) : Prop where
  nested : Yaml.isNested d = Yaml.isNested d'
  yaml : ∀ column, Yaml.write column d = Yaml.write column d'
  json : ∀ l depth, (Json.write l depth d).toOption = (Json.write l depth d').toOption

namespace Data.SameTexts

variable {d d' : Data} {items items' : List Data} {es es' : List (Bytes × Data)}

theorem refl (d : Data) : d.SameTexts d := ⟨rfl, fun _ => rfl, fun _ _ => rfl⟩

theorem trans {e : Data} (h : d.SameTexts d') (h' : d'.SameTexts e) : d.SameTexts e :=
  ⟨h.nested.trans h'.nested, fun column => (h.yaml column).trans (h'.yaml column),
    fun l depth => (h.json l depth).trans (h'.json l depth)⟩

theorem writeItems_congr (h : List.Forall₂ SameTexts items items') :
    (∀ column, Yaml.writeItems column items = Yaml.writeItems column items') ∧
      ∀ l depth, (Json.writeItems l depth items).toOption =
        (Json.writeItems l depth items').toOption := by
  induction h with
  | nil => exact ⟨fun _ => rfl, fun _ _ => rfl⟩
  | cons hitem _ ih =>
    obtain ⟨hyaml, hjson⟩ := ih
    refine ⟨fun column => ?_, fun l depth => ?_⟩
    · rw [Yaml.writeItems, Yaml.writeItems, hitem.yaml, hyaml]
    · rw [Json.writeItems_cons, Json.writeItems_cons]
      exact Json.toOption_sequence _ (hitem.json l depth) (hjson l depth)

theorem list (h : List.Forall₂ SameTexts items items') :
    (Data.list items).SameTexts (.list items') where
  nested := by cases h <;> rfl
  yaml column := by
    obtain ⟨hyaml, -⟩ := writeItems_congr h
    cases h with
    | nil => rfl
    | cons _ _ => rw [Yaml.write, Yaml.write, hyaml]
  json l depth := by
    obtain ⟨-, hjson⟩ := writeItems_congr h
    rw [Json.write, Json.write, Json.toOption_map, Json.toOption_map, hjson]

theorem writeEntries_congr (h : List.Forall₂ (fun e e' => e.1 = e'.1 ∧ e.2.SameTexts e'.2) es es') :
    (∀ column, Yaml.writeEntries column es = Yaml.writeEntries column es') ∧
      ∀ l depth, (Json.writeEntries l depth es).toOption =
        (Json.writeEntries l depth es').toOption := by
  induction h with
  | nil => exact ⟨fun _ => rfl, fun _ _ => rfl⟩
  | @cons e e' _ _ he _ ih =>
    obtain ⟨key, value⟩ := e
    obtain ⟨key', value'⟩ := e'
    obtain ⟨rfl, hvalue⟩ : key = key' ∧ value.SameTexts value' := he
    obtain ⟨hyaml, hjson⟩ := ih
    refine ⟨fun column => ?_, fun l depth => ?_⟩
    · rw [Yaml.writeEntries, Yaml.writeEntries, Yaml.behindKey, Yaml.behindKey, hvalue.nested,
        hvalue.yaml, hyaml]
    · rw [Json.writeEntries_cons, Json.writeEntries_cons]
      exact Json.toOption_sequence _ (hvalue.json l depth) (hjson l depth)

theorem map (h : List.Forall₂ (fun e e' => e.1 = e'.1 ∧ e.2.SameTexts e'.2) es es') :
    (Data.map es).SameTexts (.map es') where
  nested := by cases h <;> rfl
  yaml column := by
    obtain ⟨hyaml, -⟩ := writeEntries_congr h
    cases h with
    | nil => rfl
    | cons _ _ => rw [Yaml.write, Yaml.write, hyaml]
  json l depth := by
    obtain ⟨-, hjson⟩ := writeEntries_congr h
    rw [Json.write, Json.write, Json.toOption_map, Json.toOption_map, hjson]

theorem of_perm (hfits : ∀ e ∈ es, Yaml.FitsWord e.1) (hnodup : (es.map Prod.fst).Nodup)
    (hperm : es'.Perm es) : (Data.map es').SameTexts (.map es) where
  nested := by rw [Yaml.isNested, Yaml.isNested, hperm.isEmpty_eq]
  yaml column := Yaml.write_map_eq_of_perm column hfits hnodup hperm
  json l depth := Json.toOption_write_map_of_perm l depth hnodup hperm

end Data.SameTexts

namespace Data

/-- Data whose texts do not show in which order the entries of maps come, at any depth. -/
def Unordered (d : Data) : Prop := ∀ d' : Data, d'.sorted = d.sorted → d'.SameTexts d

/-- A map with the same sorted entries has the same entries in some order, and each of their values
is the same once it is sorted. -/
theorem exists_perm_of_sorted {P : Data → Prop} {entries entries' : List (Bytes × Data)}
    (h : (Data.map entries').sorted = (Data.map entries).sorted) (hP : ∀ e ∈ entries, P e.2) :
    ∃ es, es.Perm entries ∧ List.Forall₂
      (fun e' e => e'.1 = e.1 ∧ e'.2.sorted = e.2.sorted ∧ P e.2) entries' es := by
  have hsorted := Data.map.inj h
  rw [sortedEntries_eq, sortedEntries_eq] at hsorted
  have hperm : (entries'.map fun e => (e.1, e.2.sorted)).Perm
      (entries.map fun e => (e.1, e.2.sorted)) :=
    (sortEntries_perm Bytes.le _).symm.trans (hsorted ▸ sortEntries_perm Bytes.le _)
  have hvalues : List.Forall₂ (fun s e => s = (e.1, e.2.sorted) ∧ P e.2)
      (entries.map fun e => (e.1, e.2.sorted)) entries := by
    rw [List.forall₂_map_left_iff, List.forall₂_same]
    exact fun e he => ⟨rfl, hP e he⟩
  obtain ⟨es, hes, hback⟩ := List.perm_comp_forall₂ hperm hvalues
  rw [List.forall₂_map_left_iff] at hes
  refine ⟨es, hback, hes.imp ?_⟩
  rintro e' e ⟨heq, he⟩
  obtain ⟨hkey, hvalue⟩ := Prod.mk.inj heq
  exact ⟨hkey, hvalue, he⟩

theorem unordered_map {entries : List (Bytes × Data)} (hfits : ∀ e ∈ entries, Yaml.FitsWord e.1)
    (hnodup : (entries.map Prod.fst).Nodup) (h : ∀ e ∈ entries, e.2.Unordered) :
    (Data.map entries).Unordered := by
  intro d' hd'
  cases d' with
  | map entries' =>
    obtain ⟨es, hperm, hes⟩ := exists_perm_of_sorted hd' h
    refine .trans (.map (hes.imp ?_)) (.of_perm hfits hnodup hperm)
    rintro e' e ⟨hkey, hsorted, he⟩
    exact ⟨hkey, he _ hsorted⟩
  | _ => simp [sorted] at hd'

theorem unordered_list {items : List Data} (h : ∀ item ∈ items, item.Unordered) :
    (Data.list items).Unordered := by
  intro d' hd'
  cases d' with
  | list items' =>
    have hitems : List.Forall₂ (fun s item => s = item.sorted ∧ item.Unordered)
        (items.map sorted) items := by
      rw [List.forall₂_map_left_iff, List.forall₂_same]
      exact fun item hitem => ⟨rfl, h item hitem⟩
    rw [sorted, sorted, Data.list.injEq, sortedItems_eq, sortedItems_eq] at hd'
    rw [← hd', List.forall₂_map_left_iff] at hitems
    refine .list (hitems.imp ?_)
    rintro item' item ⟨hsorted, hitem⟩
    exact hitem item' hsorted
  | _ => simp [sorted] at hd'

/-- Data without parts is its own only order. -/
theorem unordered_of_ne {d : Data} (hlist : ∀ items, d ≠ .list items)
    (hmap : ∀ entries, d ≠ .map entries) : d.Unordered := by
  intro d' hd'
  have heq : d' = d := by cases d <;> cases d' <;> simp_all [sorted]
  rw [heq]
  exact .refl d

theorem unordered_span (s : Span) : s.tree.Unordered := by
  apply unordered_map
  · simp only [List.forall_mem_cons]
    exact ⟨Yaml.fitsWord_of_length_le (by decide), Yaml.fitsWord_of_length_le (by decide),
      List.forall_mem_nil _⟩
  · change [bytes "end", bytes "start"].Nodup
    decide
  · simp only [List.forall_mem_cons]
    exact ⟨unordered_of_ne (by simp [nat]) (by simp [nat]),
      unordered_of_ne (by simp [nat]) (by simp [nat]), List.forall_mem_nil _⟩

theorem inherited_unordered : Data.Inherited Data.Unordered where
  null := unordered_of_ne (by simp) (by simp)
  boolean b := unordered_of_ne (by simp) (by simp)
  number x := unordered_of_ne (by simp) (by simp)
  list ms h := unordered_list (List.forall_mem_map.mpr h)
  node kind loc parts hparts h := by
    have hkeys := Kind.keys_eq loc hparts
    refine unordered_map (fun e he => ?_) (hkeys ▸ kind.nodup_keys) ?_
    · have hlength : ∀ key ∈ kind.keys, key.length ≤ 18 := by cases kind <;> decide +kernel
      apply Yaml.fitsWord_of_length_le
      apply hlength
      rw [← hkeys]
      exact List.mem_map_of_mem he
    · simp only [List.forall_mem_cons]
      exact ⟨unordered_of_ne (by simp) (by simp), unordered_span loc, h⟩

end Data

/-- A tree is written in the same way in whatever order the entries of its maps come, or not at all:
data that is the same once all entries are sorted has the same text in every format. -/
theorem Document.write_unordered (d : Document Span) (f : OutputFormat) {data : Data}
    (h : data.sorted = d.tree.sorted) : (f.write data).toOption = (f.write d.tree).toOption := by
  have hsame : data.SameTexts d.tree :=
    (Node.document d).inherited_tree Data.inherited_unordered
      (fun _ _ _ _ => Data.unordered_of_ne (by simp) (by simp)) data h
  cases f with
  | none => rfl
  | yaml => rw [OutputFormat.write, OutputFormat.write, Yaml.writeDocument, hsame.yaml]; rfl
  | json =>
    have hjson := hsame.json .indented 0
    rw [OutputFormat.write, OutputFormat.write, Json.writeIndented, Json.writeIndented]
    cases hw : Json.write .indented 0 data <;> cases hw' : Json.write .indented 0 d.tree <;>
      simp_all [Except.toOption, Except.map]

end SchemaDoc
