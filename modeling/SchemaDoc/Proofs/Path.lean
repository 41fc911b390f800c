import Mathlib.Data.List.Basic
import Mathlib.Data.List.Induction
import Mathlib.Tactic.SplitIfs
import SchemaDoc.Path

/-! # Paths from the root

The components of a path from the root are names, so the path is clean and does
not lead out of the root. A relative path climbs a number of directories before
it descends; below another path it means the same as from the root just when it
does not climb.
-/

namespace SchemaDoc

namespace Bytes

theorem split_eq_splitOn (sep : UInt8) (s : Bytes) : split sep s = s.splitOn sep := by
  induction s with
  | nil => rfl
  | cons b s ih =>
    rw [split, List.splitOn_cons_eq_if_modifyHead, ih]
    by_cases h : b = sep
    · rw [if_pos h, if_pos (beq_iff_eq.mpr h)]
    · rw [if_neg h, if_neg (by simpa using h)]
      cases hsplit : s.splitOn sep with
      | nil => exact absurd hsplit (List.splitOn_ne_nil sep s)
      | cons piece pieces => rfl

theorem join_eq_intercalate (sep : Bytes) (pieces : List Bytes) :
    join sep pieces = sep.intercalate pieces := rfl

theorem split_join {sep : UInt8} {pieces : List Bytes} (h : ∀ piece ∈ pieces, sep ∉ piece)
    (hne : pieces ≠ []) : split sep (join [sep] pieces) = pieces := by
  rw [split_eq_splitOn, join_eq_intercalate, List.splitOn_intercalate sep h hne]

theorem join_split (sep : UInt8) (s : Bytes) : join [sep] (split sep s) = s := by
  rw [split_eq_splitOn, join_eq_intercalate, List.intercalate_splitOn]

theorem notMem_of_mem_split {sep : UInt8} {s piece : Bytes} (h : piece ∈ split sep s) :
    sep ∉ piece := by
  induction s generalizing piece with
  | nil =>
    rw [List.mem_singleton.mp h]
    exact List.not_mem_nil
  | cons b s ih =>
    rw [split] at h
    split_ifs at h with hb
    · rcases List.mem_cons.mp h with rfl | h
      · exact List.not_mem_nil
      · exact ih h
    · cases hsplit : split sep s with
      | nil => exact absurd (split_eq_splitOn sep s ▸ hsplit) (List.splitOn_ne_nil sep s)
      | cons first pieces =>
        rw [hsplit] at h ih
        rcases List.mem_cons.mp h with rfl | h
        · simpa [Ne.symm hb] using ih List.mem_cons_self
        · exact ih (List.mem_cons_of_mem _ h)

end Bytes

namespace Path

variable {base p name c : Bytes} {read cs : List Bytes} {r : Bool}

/-- What stands between the slashes of a clean path from the root. -/
structure IsName (c : Bytes) : Prop where
  ne_nil : c ≠ []
  ne_dot : c ≠ dot
  ne_dots : c ≠ dots
  slash_notMem : 0x2F ∉ c

theorem isName_iff : IsName c ↔ c ≠ [] ∧ c ≠ dot ∧ c ≠ dots ∧ 0x2F ∉ c :=
  ⟨fun h => ⟨h.1, h.2, h.3, h.4⟩, fun ⟨h₁, h₂, h₃, h₄⟩ => ⟨h₁, h₂, h₃, h₄⟩⟩

instance (c : Bytes) : Decidable (IsName c) := decidable_of_iff' _ isName_iff

/-- A path starts at the root and, if it is not the root itself, none of its components is empty, a
dot or a pair of dots. -/
def IsConfined (p : Bytes) : Prop :=
  p = [0x2F] ∨
    ∃ rest, p = 0x2F :: rest ∧ ∀ c ∈ Bytes.split 0x2F rest, c ≠ [] ∧ c ≠ dot ∧ c ≠ dots

/-- What one component does to those read so far. -/
def push (rooted : Bool) (read : List Bytes) (c : Bytes) : List Bytes :=
  if c = [] ∨ c = dot then read
  else if c = dots then
    match read with
    | [] => if rooted then [] else [dots]
    | last :: before => if last = dots then dots :: read else before
  else c :: read

theorem cleanFrom_eq (r : Bool) (read cs : List Bytes) :
    cleanFrom r read cs = (cs.foldl (push r) read).reverse := by
  fun_induction cleanFrom r read cs <;> simp_all [push]

theorem cleanFrom_append (r : Bool) (read xs ys : List Bytes) :
    cleanFrom r read (xs ++ ys) = cleanFrom r (cleanFrom r read xs).reverse ys := by
  simp [cleanFrom_eq]

theorem push_nil : push r read [] = read := rfl

theorem IsName.push_eq (h : IsName c) : push r read c = c :: read := by
  simp [push, h.ne_nil, h.ne_dot, h.ne_dots]

/-- At the root a pair of dots takes the last name, if there is one. -/
theorem push_dots (hread : ∀ d ∈ read, IsName d) : push true read dots = read.tail := by
  cases read with
  | nil => rfl
  | cons last before => exact if_neg (hread last List.mem_cons_self).ne_dots

/-- A component is dropped, takes back another one or is a name. -/
theorem push_cases (hc : 0x2F ∉ c) :
    (∀ r read, push r read c = read) ∨ c = dots ∨ IsName c := by
  by_cases hempty : c = [] ∨ c = dot
  · exact .inl fun r read => if_pos hempty
  · obtain ⟨hnil, hdot⟩ := not_or.mp hempty
    exact .inr (or_iff_not_imp_left.mpr fun hdots => ⟨hnil, hdot, hdots, hc⟩)

theorem foldl_push_of_names (h : ∀ c ∈ cs, IsName c) :
    cs.foldl (push r) read = cs.reverse ++ read := by
  induction cs generalizing read with
  | nil => rfl
  | cons c cs ih =>
    obtain ⟨hc, hcs⟩ := List.forall_mem_cons.mp h
    rw [List.foldl_cons, hc.push_eq, ih hcs, List.reverse_cons, List.append_assoc]
    rfl

/-- Only names are left at the root. -/
theorem isName_of_mem_push (hread : ∀ d ∈ read, IsName d) (hc : 0x2F ∉ c) :
    ∀ d ∈ push true read c, IsName d := by
  rcases push_cases hc with heq | rfl | hname
  · rwa [heq]
  · rw [push_dots hread]
    exact fun d hd => hread d (List.mem_of_mem_tail hd)
  · rw [hname.push_eq]
    exact List.forall_mem_cons.mpr ⟨hname, hread⟩

theorem isName_of_mem_foldl_push (hread : ∀ d ∈ read, IsName d) (hcs : ∀ c ∈ cs, 0x2F ∉ c) :
    ∀ d ∈ cs.foldl (push true) read, IsName d := by
  induction cs generalizing read with
  | nil => exact hread
  | cons c cs ih =>
    obtain ⟨hc, hcs⟩ := List.forall_mem_cons.mp hcs
    exact ih (isName_of_mem_push hread hc) hcs

theorem isName_of_mem_components : ∀ c ∈ components p, IsName c := by
  intro c hc
  rw [components, cleanFrom_eq, List.mem_reverse] at hc
  exact isName_of_mem_foldl_push (by simp) (fun _ => Bytes.notMem_of_mem_split) c hc

theorem components_append (base p : Bytes) :
    components (base ++ 0x2F :: p) =
      cleanFrom true (components base).reverse (Bytes.split 0x2F p) := by
  have hsplit : Bytes.split 0x2F (base ++ 0x2F :: p) =
      Bytes.split 0x2F base ++ Bytes.split 0x2F p := by
    simp only [Bytes.split_eq_splitOn, List.splitOn_append_cons_self]
  rw [components, components, hsplit, cleanFrom_append]

/-- A rendered path adds its components to whatever stands before them. -/
theorem cleanFrom_split_render (h : ∀ c ∈ cs, IsName c) :
    cleanFrom r read (Bytes.split 0x2F (render cs)) = read.reverse ++ cs := by
  have hsplit : Bytes.split 0x2F (render cs) = [] :: Bytes.split 0x2F (Bytes.join [0x2F] cs) := rfl
  rw [hsplit, cleanFrom_eq, List.foldl_cons, push_nil]
  cases cs with
  | nil => simp [Bytes.join, Bytes.split, push_nil]
  | cons c cs =>
    rw [Bytes.split_join (fun d hd => (h d hd).slash_notMem) (List.cons_ne_nil c cs),
      foldl_push_of_names h, List.reverse_append, List.reverse_reverse]

@[simp]
theorem components_render (h : ∀ c ∈ cs, IsName c) : components (render cs) = cs :=
  cleanFrom_split_render h

@[simp]
theorem components_rooted (p : Bytes) : components (rooted p) = components p :=
  components_render isName_of_mem_components

theorem isConfined_render (h : ∀ c ∈ cs, IsName c) : IsConfined (render cs) := by
  cases cs with
  | nil => exact .inl rfl
  | cons c cs =>
    refine .inr ⟨_, rfl, fun d hd => ?_⟩
    rw [Bytes.split_join (fun d hd => (h d hd).slash_notMem) (List.cons_ne_nil c cs)] at hd
    exact ⟨(h d hd).ne_nil, (h d hd).ne_dot, (h d hd).ne_dots⟩

theorem isConfined_rooted (p : Bytes) : IsConfined (rooted p) :=
  isConfined_render isName_of_mem_components

/-- The confined paths are those that cleaning at the root leaves as they are. -/
theorem isConfined_iff : IsConfined p ↔ rooted p = p := by
  refine ⟨?_, fun h => h ▸ isConfined_rooted p⟩
  rintro (rfl | ⟨rest, rfl, h⟩)
  · rfl
  · have hnames : ∀ c ∈ Bytes.split 0x2F rest, IsName c := fun c hc =>
      ⟨(h c hc).1, (h c hc).2.1, (h c hc).2.2, Bytes.notMem_of_mem_split hc⟩
    have hrender : 0x2F :: rest = render (Bytes.split 0x2F rest) := by
      rw [render, Bytes.join_split]
    rw [hrender, rooted, components_render hnames]

instance (p : Bytes) : Decidable (IsConfined p) := decidable_of_iff' _ isConfined_iff

theorem IsConfined.rooted_eq (h : IsConfined p) : rooted p = p := isConfined_iff.mp h

theorem IsConfined.exists_cons (h : IsConfined p) : ∃ rest, p = 0x2F :: rest :=
  ⟨_, h.rooted_eq.symm⟩

theorem IsConfined.components_inj {q : Bytes} (h : IsConfined p) (hq : IsConfined q) :
    components p = components q ↔ p = q :=
  ⟨fun heq => by rw [← h.rooted_eq, ← hq.rooted_eq, rooted, rooted, heq], congrArg components⟩

/-- The length of components that each stand behind a slash. -/
def weight (cs : List Bytes) : Nat := cs.flatten.length + cs.length

theorem weight_cons (c : Bytes) (cs : List Bytes) : weight (c :: cs) = c.length + 1 + weight cs := by
  simp only [weight, List.flatten_cons, List.length_append, List.length_cons]
  omega

theorem weight_reverse (cs : List Bytes) : weight cs.reverse = weight cs := by
  rw [weight, List.length_reverse, (List.reverse_perm cs).flatten.length_eq, weight]

theorem weight_push_le (hread : ∀ d ∈ read, IsName d) (hc : 0x2F ∉ c) :
    weight (push true read c) ≤ weight (c :: read) := by
  rcases push_cases hc with heq | rfl | hname
  · rw [heq, weight_cons]
    omega
  · rw [push_dots hread, weight_cons]
    cases read with
    | nil => exact Nat.le_add_left _ _
    | cons last before =>
      rw [weight_cons, List.tail_cons]
      omega
  · exact Nat.le_of_eq (congrArg weight hname.push_eq)

theorem weight_foldl_push_le (hread : ∀ d ∈ read, IsName d) (hcs : ∀ c ∈ cs, 0x2F ∉ c) :
    weight (cs.foldl (push true) read) ≤ weight read + weight cs := by
  induction cs generalizing read with
  | nil => exact Nat.le_add_right _ _
  | cons c cs ih =>
    obtain ⟨hc, hcs⟩ := List.forall_mem_cons.mp hcs
    have hpush := weight_push_le hread hc
    have hrest := ih (isName_of_mem_push hread hc) hcs
    rw [weight_cons] at hpush ⊢
    rw [List.foldl_cons]
    omega

theorem weight_split (p : Bytes) : weight (Bytes.split 0x2F p) = p.length + 1 := by
  induction p with
  | nil => rfl
  | cons b p ih =>
    rw [Bytes.split]
    split_ifs
    · rw [weight_cons, ih, List.length_nil, List.length_cons]
      omega
    · cases hsplit : Bytes.split 0x2F p with
      | nil => exact absurd (Bytes.split_eq_splitOn _ _ ▸ hsplit) (List.splitOn_ne_nil _ _)
      | cons piece pieces =>
        rw [hsplit, weight_cons] at ih
        simp only [weight_cons, List.length_cons]
        omega

theorem length_render (h : ∀ c ∈ cs, IsName c) (hne : cs ≠ []) :
    (render cs).length = weight cs := by
  have hjoin := weight_split (Bytes.join [0x2F] cs)
  rw [Bytes.split_join (fun c hc => (h c hc).slash_notMem) hne] at hjoin
  rw [hjoin, render, List.length_cons]

/-- Cleaning never makes a path from the root longer. -/
theorem length_rooted_le (rest : Bytes) : (rooted (0x2F :: rest)).length ≤ rest.length + 1 := by
  have hcomponents : components (0x2F :: rest) = components rest := components_append [] rest
  have hweight : weight (components rest) ≤ rest.length + 1 := by
    have hpieces : ∀ c ∈ Bytes.split 0x2F rest, 0x2F ∉ c := fun _ => Bytes.notMem_of_mem_split
    have hle := weight_foldl_push_le (List.forall_mem_nil IsName) hpieces
    rw [weight_split] at hle
    rw [components, cleanFrom_eq, weight_reverse]
    exact Nat.le_trans hle (Nat.le_of_eq (Nat.zero_add _))
  rw [rooted, hcomponents]
  by_cases hne : components rest = []
  · rw [hne]
    exact Nat.le_add_left _ _
  · rwa [length_render isName_of_mem_components hne]

theorem IsConfined.below_eq (h : IsConfined base) (p : Bytes) :
    Path.below base p = rooted (base ++ 0x2F :: p) := by
  obtain ⟨rest, rfl⟩ := h.exists_cons
  rfl

theorem IsConfined.below (h : IsConfined base) (p : Bytes) : IsConfined (Path.below base p) := by
  rw [h.below_eq]
  exact isConfined_rooted _

theorem IsConfined.components_below (h : IsConfined base) (p : Bytes) :
    components (Path.below base p) =
      cleanFrom true (components base).reverse (Bytes.split 0x2F p) := by
  rw [h.below_eq, components_rooted, components_append]

theorem IsConfined.components_below_name (h : IsConfined base) (hname : IsName name) :
    components (Path.below base name) = components base ++ [name] := by
  have hsplit : Bytes.split 0x2F name = [name] := by
    rw [Bytes.split_eq_splitOn, List.splitOn_eq_singleton hname.slash_notMem]
  rw [h.components_below, hsplit, cleanFrom_eq, List.foldl_cons, hname.push_eq]
  simp

theorem IsConfined.components_below_of_isConfined (h : IsConfined base) (hp : IsConfined p) :
    components (Path.below base p) = components base ++ components p := by
  have hsplit : cleanFrom true (components base).reverse (Bytes.split 0x2F p) =
      components base ++ components p := by
    rw [← hp.rooted_eq, rooted, cleanFrom_split_render isName_of_mem_components,
      List.reverse_reverse, components_render isName_of_mem_components]
  rw [h.components_below, hsplit]

@[simp]
theorem IsConfined.below_root (h : IsConfined base) : Path.below base [0x2F] = base := by
  rw [← (h.below _).components_inj h, h.components_below_of_isConfined (.inl rfl)]
  exact List.append_nil _

/-- Names in a directory give different paths. -/
theorem IsConfined.below_name_inj (h : IsConfined base) {name' : Bytes} (hname : IsName name)
    (hname' : IsName name') (heq : Path.below base name = Path.below base name') : name = name' := by
  have hcomponents := congrArg components heq
  rw [h.components_below_name hname, h.components_below_name hname'] at hcomponents
  simpa using hcomponents

theorem components_parent (p : Bytes) : components (parent p) = (components p).dropLast :=
  components_render fun _ hc => isName_of_mem_components _ (List.dropLast_subset _ hc)

theorem isConfined_parent (p : Bytes) : IsConfined (parent p) :=
  isConfined_render fun _ hc => isName_of_mem_components _ (List.dropLast_subset _ hc)

/-- A file in a directory has the directory as its parent, below whatever root they are seen. -/
theorem IsConfined.parent_below {directory : Bytes} (h : IsConfined base)
    (hdirectory : IsConfined directory) (hname : IsName name) :
    parent (Path.below base (Path.below directory name)) = Path.below base directory := by
  rw [← (isConfined_parent _).components_inj (h.below directory), components_parent,
    h.components_below_of_isConfined (hdirectory.below name),
    hdirectory.components_below_name hname, h.components_below_of_isConfined hdirectory,
    ← List.append_assoc, List.dropLast_concat]

/-- A clean path is that of a directory or leads to something in it, directly or not. -/
def IsUnder (base p : Bytes) : Prop := components base <+: components p

/-- What is in a directory, and not the directory itself, has its own directory there. -/
theorem isUnder_parent_below (h : IsConfined base) (hp : IsConfined p) (hne : p ≠ [0x2F]) :
    IsUnder base (parent (Path.below base p)) := by
  have hcomponents : components p ≠ [] := (hp.components_inj (.inl rfl)).not.mpr hne
  rw [IsUnder, components_parent, h.components_below_of_isConfined hp,
    List.dropLast_append_of_ne_nil hcomponents]
  exact List.prefix_append _ _

theorem isConfined_absolute {workingDirectory : Bytes} (h : IsConfined workingDirectory) (p : Bytes) :
    IsConfined (absolute workingDirectory p) := by
  rw [absolute]
  split_ifs
  · exact isConfined_rooted p
  · exact h.below p

/-- A relative path leads out of the directory that it is taken from. -/
def Climbs (p : Bytes) : Prop := dots ∈ cleanFrom false [] (Bytes.split 0x2F p)

instance (p : Bytes) : Decidable (Climbs p) :=
  inferInstanceAs (Decidable (dots ∈ cleanFrom false [] (Bytes.split 0x2F p)))

/-- A relative path climbs a number of directories and then descends by names. Below given names it
takes back as many of them, as far as there are that many. -/
theorem exists_climb (hcs : ∀ c ∈ cs, 0x2F ∉ c) :
    ∃ k descent, (∀ d ∈ descent, IsName d) ∧
      cs.foldl (push false) [] = descent ++ List.replicate k dots ∧
      ∀ read, (∀ d ∈ read, IsName d) → cs.foldl (push true) read = descent ++ read.drop k := by
  induction cs using List.reverseRecOn with
  | nil => exact ⟨0, [], by simp, rfl, fun read _ => rfl⟩
  | append_singleton cs c ih =>
    obtain ⟨hcs, hc⟩ := List.forall_mem_append.mp hcs
    obtain ⟨k, descent, hdescent, hrelative, hrooted⟩ := ih hcs
    simp only [List.foldl_concat, hrelative]
    rcases push_cases (hc c (List.mem_singleton_self c)) with heq | rfl | hname
    · exact ⟨k, descent, hdescent, heq _ _, fun read hread => by rw [hrooted read hread, heq]⟩
    · have hnames (read : List Bytes) (hread : ∀ d ∈ read, IsName d) :
          ∀ d ∈ descent ++ read.drop k, IsName d :=
        List.forall_mem_append.mpr ⟨hdescent, fun d hd => hread d (List.mem_of_mem_drop hd)⟩
      cases descent with
      | nil =>
        refine ⟨k + 1, [], by simp, ?_, fun read hread => ?_⟩
        · cases k <;> rfl
        · rw [hrooted read hread, push_dots (hnames read hread), List.nil_append, List.nil_append,
            List.tail_drop]
      | cons last descent =>
        obtain ⟨hlast, hdescent⟩ := List.forall_mem_cons.mp hdescent
        refine ⟨k, descent, hdescent, if_neg hlast.ne_dots, fun read hread => ?_⟩
        rw [hrooted read hread, push_dots (hnames read hread)]
        rfl
    · refine ⟨k, c :: descent, List.forall_mem_cons.mpr ⟨hname, hdescent⟩, hname.push_eq,
        fun read hread => ?_⟩
      rw [hrooted read hread, hname.push_eq]
      rfl

/-- A path below a directory is the same as from the root and then below the directory, just when it
does not climb or the directory is the root, from which nothing climbs. -/
theorem IsConfined.below_eq_below_rooted_iff (h : IsConfined base) (p : Bytes) :
    Path.below base p = Path.below base (rooted p) ↔ base = [0x2F] ∨ ¬Climbs p := by
  have hnames : ∀ c ∈ components base, IsName c := isName_of_mem_components
  obtain ⟨k, descent, hdescent, hrelative, hrooted⟩ :=
    exists_climb fun c (hc : c ∈ Bytes.split 0x2F p) => Bytes.notMem_of_mem_split hc
  have hclimbs : Climbs p ↔ k ≠ 0 := by
    have hnot : dots ∉ descent := fun hmem => (hdescent dots hmem).ne_dots rfl
    rw [Climbs, cleanFrom_eq, List.mem_reverse, hrelative, List.mem_append, List.mem_replicate]
    simp [hnot]
  have hcomponents : components p = descent.reverse := by
    rw [components, cleanFrom_eq, hrooted [] (by simp), List.drop_nil, List.append_nil]
  have hroot : base = [0x2F] ↔ components base = [] := (h.components_inj (.inl rfl)).symm
  rw [← (h.below p).components_inj (h.below (rooted p)),
    h.components_below_of_isConfined (isConfined_rooted p), components_rooted, h.components_below,
    cleanFrom_eq, hrooted _ (by simpa using hnames), hcomponents, hroot, hclimbs, not_not,
    List.reverse_append, List.append_left_inj, List.reverse_eq_iff]
  constructor
  · intro heq
    have hlength := congrArg List.length heq
    rw [List.length_drop, List.length_reverse] at hlength
    rw [List.eq_nil_iff_length_eq_zero]
    omega
  · rintro (hnil | rfl)
    · simp [hnil]
    · rfl

end Path

end SchemaDoc
