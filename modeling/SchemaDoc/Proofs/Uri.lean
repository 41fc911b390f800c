import Mathlib.Data.List.TakeWhile
import SchemaDoc.Proofs.Path
import SchemaDoc.Uri

/-! # Targets that stand for themselves

A text without a scheme and without an authority is read up to its query and its
fragment, and then decoded. So it stands for itself when it has no marks for
these and nothing to decode, or when it is no identifier at all.
-/

namespace SchemaDoc

namespace Bytes

variable {sep : UInt8} {s : Bytes}

theorem cut_fst (sep : UInt8) (s : Bytes) : (cut sep s).1 = s.takeWhile (· != sep) := by
  rw [cut]
  cases h : s.dropWhile (· != sep) with
  | nil =>
    rw [List.dropWhile_eq_nil_iff] at h
    exact (List.takeWhile_eq_self_iff.mpr h).symm
  | cons b rest => rfl

theorem takeWhile_ne_eq_self_iff : s.takeWhile (· != sep) = s ↔ sep ∉ s := by
  simp only [List.takeWhile_eq_self_iff, bne_iff_ne]
  exact ⟨fun h hmem => h sep hmem rfl, fun h b hb heq => h (heq ▸ hb)⟩

end Bytes

namespace Uri

variable {s t : Bytes} {decoded plain : UInt8 → Bool}

theorem decode?_cons_of_ne {b : UInt8} (h : b ≠ 0x25) :
    decode? decoded plain (b :: s) =
      if plain b then (decode? decoded plain s).map (b :: ·) else none := by
  rw [decode?]
  · exact fun _ _ _ h' => absurd h' h
  · exact h

/-- Decoding shortens a text with anything to decode. -/
theorem length_le_of_decode? (h : decode? decoded plain s = some t) :
    t.length ≤ s.length ∧ (0x25 ∈ s → t.length < s.length) := by
  fun_induction decode? decoded plain s generalizing t with
  | case1 =>
    cases h
    exact ⟨le_rfl, nofun⟩
  | case2 =>
    rename_i ih
    obtain ⟨u, hu, rfl⟩ := Option.map_eq_some_iff.mp h
    have hle := (ih hu).1
    simp only [List.length_cons]
    omega
  | case6 b s _ hb _ ih =>
    obtain ⟨u, hu, rfl⟩ := Option.map_eq_some_iff.mp h
    obtain ⟨hle, hlt⟩ := ih hu
    refine ⟨Nat.succ_le_succ hle, fun hmem => Nat.succ_lt_succ (hlt ?_)⟩
    exact (List.mem_cons.mp hmem).resolve_left fun heq => hb heq.symm
  | case3 | case4 | case5 | case7 => nomatch h

theorem decode?_eq_self (h : 0x25 ∉ s) (hplain : ∀ b ∈ s, plain b = true) :
    decode? decoded plain s = some s := by
  induction s with
  | nil => rfl
  | cons b s ih =>
    obtain ⟨hb, hs⟩ := List.forall_mem_cons.mp hplain
    rw [List.mem_cons, not_or] at h
    rw [decode?_cons_of_ne (Ne.symm h.1), if_pos hb, ih h.2 hs, Option.map_some]

theorem decodeFree?_eq_self (h : 0x25 ∉ s) : decodeFree? s = some s :=
  decode?_eq_self h fun _ _ => rfl

/-- No scheme and no authority can be read at the start of a text. -/
def IsPlain (s : Bytes) : Prop :=
  (0x3A ∉ s ∨ Bytes.startsWith [0x2F] s = true) ∧ Bytes.startsWith (bytes "//") s = false

instance (s : Bytes) : Decidable (IsPlain s) :=
  inferInstanceAs (Decidable (_ ∧ _))

/-- A text has no mark of a fragment, of a query or of an encoded byte. -/
def IsUnmarked (s : Bytes) : Prop := 0x23 ∉ s ∧ 0x3F ∉ s ∧ 0x25 ∉ s

instance (s : Bytes) : Decidable (IsUnmarked s) := inferInstanceAs (Decidable (_ ∧ _ ∧ _))

theorem scheme?_of_plain (h : 0x3A ∉ s ∨ Bytes.startsWith [0x2F] s = true) :
    scheme? s = some ([], s) := by
  rcases h with hcolon | hslash
  · cases s with
    | nil => rfl
    | cons b s =>
      rw [scheme?, if_neg fun hb : b = 0x3A => hcolon (hb ▸ List.mem_cons_self)]
      split_ifs
      · rfl
      · split
        · next rest hrest =>
          have hmem : 0x3A ∈ b :: s := List.dropWhile_subset _ (hrest ▸ List.mem_cons_self)
          exact absurd hmem hcolon
        · rfl
  · obtain ⟨rest, rfl⟩ := Bytes.startsWith_iff.mp hslash
    rfl

theorem IsPlain.takeWhile {p : UInt8 → Bool} (h : IsPlain s) (hslash : p 0x2F = true) :
    IsPlain (s.takeWhile p) := by
  obtain ⟨hstart, hauthority⟩ := h
  refine ⟨hstart.imp (fun hcolon hmem => hcolon (List.takeWhile_sublist p |>.subset hmem)) ?_, ?_⟩
  · intro hs
    obtain ⟨rest, rfl⟩ := Bytes.startsWith_iff.mp hs
    exact Bytes.startsWith_iff.mpr ⟨rest.takeWhile p, by simp [hslash]⟩
  · rw [Bool.eq_false_iff] at hauthority ⊢
    intro hs
    obtain ⟨rest, hrest⟩ := Bytes.startsWith_iff.mp hs
    refine hauthority (Bytes.startsWith_iff.mpr ⟨rest ++ s.dropWhile p, ?_⟩)
    rw [← List.append_assoc, ← hrest, List.takeWhile_append_dropWhile]

/-- What is read of a plain text is its part before any query. -/
theorem IsPlain.rawPath?_cases (h : IsPlain s) :
    rawPath? s = none ∨ rawPath? s = some (s.takeWhile (· != 0x3F)) := by
  obtain ⟨hstart, hauthority⟩ := h.takeWhile (p := (· != 0x3F)) rfl
  have hcolon : (!Bytes.startsWith [0x2F] (s.takeWhile (· != 0x3F)) &&
      ((s.takeWhile (· != 0x3F)).takeWhile (· != 0x2F)).contains 0x3A) = false := by
    rw [Bool.and_eq_false_iff]
    refine hstart.symm.imp (by simp) fun hcolon => ?_
    rw [← Bool.not_eq_true, List.contains_iff_mem]
    exact fun hmem => hcolon ((List.takeWhile_sublist _).subset hmem)
  rw [rawPath?]
  split_ifs with hcontrol hstar
  · exact .inl rfl
  · rw [hstar]
    exact .inr rfl
  · rw [scheme?_of_plain h.1]
    simp only [Bytes.cut_fst, hcolon, hauthority]
    simp

theorem IsPlain.path?_cases (h : IsPlain s) :
    path? s = none ∨
      path? s = decodeFree? ((s.takeWhile (· != 0x23)).takeWhile (· != 0x3F)) := by
  have hbody : (Bytes.cut 0x23 s).1 = s.takeWhile (· != 0x23) := Bytes.cut_fst 0x23 s
  have hraw := (h.takeWhile (p := (· != 0x23)) rfl).rawPath?_cases
  rw [← hbody] at hraw ⊢
  rw [path?]
  generalize Bytes.cut 0x23 s = parts at hraw ⊢
  obtain ⟨body, fragment⟩ := parts
  dsimp only at hraw ⊢
  rcases hraw with hraw | hraw
  · exact .inl (by rw [hraw])
  · rw [hraw]
    cases decodeFree? (fragment.getD []) with
    | none => exact .inl rfl
    | some _ => exact .inr rfl

/-- What is read of a plain text with marks is shorter than the text. -/
theorem IsPlain.length_le_of_path? (h : IsPlain s) (hpath : path? s = some t) :
    t.length ≤ s.length ∧ (t.length = s.length → IsUnmarked s) := by
  have hdecode : decodeFree? ((s.takeWhile (· != 0x23)).takeWhile (· != 0x3F)) = some t := by
    rcases h.path?_cases with hnone | hdecode
    · rw [hnone] at hpath
      nomatch hpath
    · rw [← hdecode, hpath]
  obtain ⟨hle, hlt⟩ := length_le_of_decode? hdecode
  have hfragment : s.takeWhile (· != 0x23) <+: s := List.takeWhile_prefix _
  have hquery : (s.takeWhile (· != 0x23)).takeWhile (· != 0x3F) <+: s.takeWhile (· != 0x23) :=
    List.takeWhile_prefix _
  refine ⟨hle.trans (hquery.length_le.trans hfragment.length_le), fun hlength => ?_⟩
  have hfragment_eq := hfragment.eq_of_length
    (le_antisymm hfragment.length_le (hlength ▸ hle.trans hquery.length_le))
  rw [hfragment_eq] at hquery hle hlt
  have hquery_eq := hquery.eq_of_length (le_antisymm hquery.length_le (hlength ▸ hle))
  rw [hquery_eq, hlength] at hlt
  exact ⟨Bytes.takeWhile_ne_eq_self_iff.mp hfragment_eq,
    Bytes.takeWhile_ne_eq_self_iff.mp hquery_eq, fun hmem => (hlt hmem).false⟩

/-- A plain text stands for itself just when it is no identifier, or has no path, or has no marks. -/
theorem IsPlain.target_eq_self_iff (h : IsPlain s) :
    target s = s ↔ path? s = none ∨ path? s = some [] ∨ IsUnmarked s := by
  constructor
  · intro htarget
    cases hpath : path? s with
    | none => exact .inl rfl
    | some t =>
      cases t with
      | nil => exact .inr (.inl rfl)
      | cons b t =>
        rw [target, hpath] at htarget
        exact .inr (.inr ((h.length_le_of_path? hpath).2 (congrArg List.length htarget)))
  · rintro (hnone | hempty | ⟨hfragment, hquery, hencoded⟩)
    · rw [target, hnone]
    · rw [target, hempty]
    · have hpath := h.path?_cases
      rw [Bytes.takeWhile_ne_eq_self_iff.mpr hfragment, Bytes.takeWhile_ne_eq_self_iff.mpr hquery,
        decodeFree?_eq_self hencoded] at hpath
      rw [target]
      rcases hpath with hnone | hself
      · rw [hnone]
      · rw [hself]
        cases s <;> rfl

theorem isPlain_of_isConfined (h : Path.IsConfined s) : IsPlain s := by
  rcases h with rfl | ⟨rest, rfl, hcomponents⟩
  · decide
  · refine ⟨.inr (Bytes.startsWith_iff.mpr ⟨rest, rfl⟩), ?_⟩
    rw [Bool.eq_false_iff]
    intro hs
    obtain ⟨rest', hrest⟩ := Bytes.startsWith_iff.mp hs
    rw [(List.cons.inj hrest).2] at hcomponents
    exact (hcomponents [] List.mem_cons_self).1 rfl

/-- What is read of a path from the root is one as well. -/
theorem exists_cons_of_path? (h : Path.IsConfined s) (hpath : path? s = some t) :
    ∃ rest, t = 0x2F :: rest := by
  obtain ⟨rest, rfl⟩ := h.exists_cons
  rcases (isPlain_of_isConfined h).path?_cases with hnone | hdecode
  · rw [hnone] at hpath
    nomatch hpath
  · rw [hpath, List.takeWhile_cons_of_pos rfl, List.takeWhile_cons_of_pos rfl, decodeFree?,
      decode?_cons_of_ne (by decide)] at hdecode
    obtain ⟨u, -, rfl⟩ := Option.map_eq_some_iff.mp hdecode.symm
    exact ⟨u, rfl⟩

/-- A clean path from the root, read as a target and cleaned again, stays the same just when it is
no identifier or has no marks. -/
theorem rooted_target_eq_self_iff (h : Path.IsConfined s) :
    Path.rooted (target s) = s ↔ path? s = none ∨ IsUnmarked s := by
  constructor
  · intro hself
    cases hpath : path? s with
    | none => exact .inl rfl
    | some t =>
      obtain ⟨rest, rfl⟩ := exists_cons_of_path? h hpath
      obtain ⟨hle, hunmarked⟩ := (isPlain_of_isConfined h).length_le_of_path? hpath
      rw [target, hpath] at hself
      have hlength := Path.length_rooted_le rest
      rw [hself] at hlength
      exact .inr (hunmarked (le_antisymm hle hlength))
  · intro hself
    have htarget : target s = s :=
      (isPlain_of_isConfined h).target_eq_self_iff.mpr (hself.imp_right .inr)
    rw [htarget, h.rooted_eq]

end Uri

end SchemaDoc
