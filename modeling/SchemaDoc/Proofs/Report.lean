import Mathlib.Data.List.Nodup
import SchemaDoc.Proofs.Data.Order
import SchemaDoc.Report

/-! # Reports over whole runs

What a report answers depends on the faults told to it so far and on nothing
else. Its list is the one arrangement of them that is sorted by place and keeps
their order wherever places are equal, so two interleavings of the same callers
give the same list unless different callers tell different faults of one place.
-/

namespace SchemaDoc

/-- Where a report puts a fault: its resource and its offset. -/
def Fault.spot (f : Fault) : Bytes × Int := (f.place.uri, f.place.offset)

namespace Report

variable {told listed listed' : List Fault}

/-- The resource of the first fault comes before that of the second one byte by byte, or it is the
same and the offset is not larger. -/
def NotAfter (a b : Fault) : Prop :=
  a.place.uri < b.place.uri ∨ a.place.uri = b.place.uri ∧ a.place.offset ≤ b.place.offset

instance (a b : Fault) : Decidable (NotAfter a b) := inferInstanceAs (Decidable (_ ∨ _))

theorem placeLe_iff {a b : Fault} : placeLe a b = true ↔ NotAfter a b := by
  rw [placeLe, NotAfter, ← Bytes.compare_eq_lt_iff, ← Std.compare_eq_iff_eq (a := a.place.uri)]
  cases compare a.place.uri b.place.uri <;> simp

def compareSpots : Fault → Fault → Ordering :=
  compareLex (compareOn (·.place.uri)) (compareOn (·.place.offset))

instance : Std.TransCmp compareSpots :=
  inferInstanceAs <| Std.TransCmp <|
    compareLex (compareOn fun f : Fault => f.place.uri) (compareOn fun f => f.place.offset)

theorem placeLe_eq (a b : Fault) : placeLe a b = (compareSpots a b).isLE := by
  rw [placeLe, compareSpots, compareLex, compareOn, compareOn]
  cases compare a.place.uri b.place.uri with
  | lt => rfl
  | gt => rfl
  | eq => rw [Ordering.eq_then, Bool.eq_iff_iff, decide_eq_true_iff, Std.isLE_compare]

theorem compareSpots_eq_eq_iff {a b : Fault} : compareSpots a b = .eq ↔ a.spot = b.spot := by
  rw [compareSpots, compareLex, compareOn, compareOn, Ordering.then_eq_eq, Std.compare_eq_iff_eq,
    Std.compare_eq_iff_eq, Fault.spot, Fault.spot, Prod.mk.injEq]

theorem placeLe_trans (a b c : Fault) (hab : placeLe a b = true) (hbc : placeLe b c = true) :
    placeLe a c = true := by
  rw [placeLe_eq] at hab hbc ⊢
  exact Std.TransCmp.isLE_trans hab hbc

theorem placeLe_total (a b : Fault) : (placeLe a b || placeLe b a) = true := by
  have hswap : compareSpots b a = (compareSpots a b).swap := Std.OrientedCmp.eq_swap
  rw [placeLe_eq, placeLe_eq, hswap]
  cases compareSpots a b <;> rfl

theorem NotAfter.spot_eq {a b : Fault} (hab : NotAfter a b) (hba : NotAfter b a) :
    a.spot = b.spot := by
  have hswap : compareSpots b a = (compareSpots a b).swap := Std.OrientedCmp.eq_swap
  rw [← placeLe_iff, placeLe_eq] at hab hba
  rw [hswap] at hba
  rw [← compareSpots_eq_eq_iff]
  cases h : compareSpots a b with
  | lt => rw [h] at hba; nomatch hba
  | eq => rfl
  | gt => rw [h] at hab; nomatch hab

theorem notAfter_of_spot_eq {a b : Fault} (h : a.spot = b.spot) : NotAfter a b :=
  .inr ⟨congrArg Prod.fst h, Int.le_of_eq (congrArg Prod.snd h)⟩

/-- A list of the faults told, each as often as it was told, in the order of their places, where
faults of one place are in the order in which they were told. -/
structure Arranges (told listed : List Fault) : Prop where
  perm : listed.Perm told
  sorted : listed.Pairwise NotAfter
  stable : ∀ spot, listed.filter (·.spot = spot) = told.filter (·.spot = spot)

theorem arranges_sorted (r : Report) : Arranges r.faults r.sorted where
  perm := List.mergeSort_perm _ _
  sorted := (List.pairwise_mergeSort placeLe_trans placeLe_total r.faults).imp placeLe_iff.mp
  stable spot := by
    have hequal : (r.faults.filter (·.spot = spot)).Pairwise fun a b => placeLe a b = true := by
      apply List.pairwise_of_forall_mem_list
      intro a ha b hb
      have ha := (List.mem_filter.mp ha).2
      have hb := (List.mem_filter.mp hb).2
      rw [decide_eq_true_iff] at ha hb
      exact placeLe_iff.mpr (notAfter_of_spot_eq (ha.trans hb.symm))
    have hsub := (List.sublist_mergeSort placeLe_trans placeLe_total hequal
      List.filter_sublist).filter (·.spot = spot)
    rw [List.filter_filter, List.filter_congr (fun a _ => Bool.and_self _)] at hsub
    exact (hsub.eq_of_length ((List.mergeSort_perm _ _).filter _).length_eq.symm).symm

/-- Faults at different places can be arranged in one way only. -/
theorem Arranges.eq_of_perm {faults : List Fault} (h : Arranges told listed)
    (hsorted : faults.Pairwise NotAfter) (hperm : faults.Perm told)
    (hnodup : (faults.map Fault.spot).Nodup) : listed = faults := by
  have hboth := h.perm.trans hperm.symm
  refine List.Perm.eq_of_pairwise (fun a b ha hb hab hba => ?_) h.sorted hsorted hboth
  exact List.inj_on_of_nodup_map hnodup (hboth.mem_iff.mp ha) hb (hab.spot_eq hba)

theorem mem_iff_of_filter_eq
    (h : ∀ spot, listed.filter (·.spot = spot) = listed'.filter (·.spot = spot)) (f : Fault) :
    f ∈ listed ↔ f ∈ listed' := by
  have hspot : f ∈ listed.filter (·.spot = f.spot) ↔ f ∈ listed'.filter (·.spot = f.spot) := by
    rw [h]
  simpa using hspot

/-- What is sorted is known from the faults of each place. -/
theorem eq_of_filter_eq (h : listed.Pairwise NotAfter) (h' : listed'.Pairwise NotAfter)
    (hfilter : ∀ spot, listed.filter (·.spot = spot) = listed'.filter (·.spot = spot)) :
    listed = listed' := by
  have hmem := mem_iff_of_filter_eq hfilter
  induction listed generalizing listed' with
  | nil => exact (List.eq_nil_iff_forall_not_mem.mpr fun f hf => nomatch (hmem f).mpr hf).symm
  | cons a listed ih =>
    cases listed' with
    | nil => exact absurd ((hmem a).mp List.mem_cons_self) List.not_mem_nil
    | cons b listed' =>
      obtain ⟨ha, hlisted⟩ := List.pairwise_cons.mp h
      obtain ⟨hb, hlisted'⟩ := List.pairwise_cons.mp h'
      have hab : NotAfter a b := by
        rcases List.mem_cons.mp ((hmem b).mpr List.mem_cons_self) with rfl | hb
        · exact notAfter_of_spot_eq rfl
        · exact ha b hb
      have hba : NotAfter b a := by
        rcases List.mem_cons.mp ((hmem a).mp List.mem_cons_self) with rfl | ha
        · exact notAfter_of_spot_eq rfl
        · exact hb a ha
      have hhead := hfilter a.spot
      rw [List.filter_cons_of_pos (by simp), List.filter_cons_of_pos (by simp [hab.spot_eq hba]),
        List.cons.injEq] at hhead
      obtain ⟨rfl, -⟩ := hhead
      have htail (spot : Bytes × Int) :
          listed.filter (·.spot = spot) = listed'.filter (·.spot = spot) := by
        have h := hfilter spot
        rw [List.filter_cons, List.filter_cons] at h
        split at h
        · exact List.tail_eq_of_cons_eq h
        · exact h
      rw [ih hlisted hlisted' htail (mem_iff_of_filter_eq htail)]

theorem sorted_eq_of_filter_eq {r r' : Report}
    (h : ∀ spot, r.faults.filter (·.spot = spot) = r'.faults.filter (·.spot = spot)) :
    r.sorted = r'.sorted :=
  eq_of_filter_eq (arranges_sorted r).sorted (arranges_sorted r').sorted fun spot => by
    rw [(arranges_sorted r).stable, (arranges_sorted r').stable, h]

/-- The places of sorted faults are known from the faults in any order. -/
theorem map_spot_eq_of_perm (hperm : listed.Perm listed') (h : listed.Pairwise NotAfter)
    (h' : listed'.Pairwise NotAfter) : listed.map Fault.spot = listed'.map Fault.spot := by
  have hsorted {l : List Fault} (hl : l.Pairwise NotAfter) :
      (l.map Fault.spot).Pairwise fun x y => x.1 < y.1 ∨ x.1 = y.1 ∧ x.2 ≤ y.2 :=
    List.pairwise_map.mpr hl
  apply List.Perm.eq_of_pairwise _ (hsorted h) (hsorted h') (hperm.map _)
  intro x y hx hy hxy hyx
  obtain ⟨a, -, rfl⟩ := List.mem_map.mp hx
  obtain ⟨b, -, rfl⟩ := List.mem_map.mp hy
  exact NotAfter.spot_eq hxy hyx

theorem filter_eq_of_perm (hperm : listed.Perm listed')
    (h : ∀ a ∈ listed, ∀ b ∈ listed, a.spot = b.spot → a = b) (spot : Bytes × Int) :
    listed.filter (·.spot = spot) = listed'.filter (·.spot = spot) := by
  have hall (l : List Fault) : l.Pairwise fun _ _ => True := List.pairwise_of_forall fun _ _ => ⟨⟩
  apply List.Perm.eq_of_pairwise _ (hall _) (hall _) (hperm.filter _)
  intro a b ha hb _ _
  obtain ⟨ha, haspot⟩ := List.mem_filter.mp ha
  obtain ⟨hb, hbspot⟩ := List.mem_filter.mp hb
  exact h a ha b (hperm.mem_iff.mpr hb)
    ((of_decide_eq_true haspot).trans (of_decide_eq_true hbspot).symm)

section Interleaving

variable {κ : Type} [DecidableEq κ] {xs ys : List (κ × Fault)}

/-- Both lists are interleavings of the same callers: what a caller tells, it tells in the same
order in both. -/
def SameCallers (xs ys : List (κ × Fault)) : Prop :=
  ∀ caller, xs.filter (·.1 = caller) = ys.filter (·.1 = caller)

/-- Faults of one place are equal or come from one caller. -/
def TiesAgree (xs : List (κ × Fault)) : Prop :=
  ∀ x ∈ xs, ∀ y ∈ xs, x.2.spot = y.2.spot → x.2 = y.2 ∨ x.1 = y.1

theorem SameCallers.filter (h : SameCallers xs ys) (p : κ × Fault → Bool) :
    SameCallers (xs.filter p) (ys.filter p) := fun caller => by
  rw [List.filter_comm, h, List.filter_comm]

theorem SameCallers.perm (h : SameCallers xs ys) : xs.Perm ys := by
  rw [List.perm_iff_count]
  intro x
  have hcount (zs : List (κ × Fault)) : zs.count x = (zs.filter (·.1 = x.1)).count x :=
    (List.count_filter (by simp)).symm
  rw [hcount, h, ← hcount]

/-- The faults of one place are told in the same order by all interleavings. -/
theorem SameCallers.map_eq (h : SameCallers xs ys)
    (hagree : ∀ x ∈ xs, ∀ y ∈ xs, x.2 = y.2 ∨ x.1 = y.1) : xs.map Prod.snd = ys.map Prod.snd := by
  have hperm := h.perm
  cases xs with
  | nil => rw [List.nil_perm.mp hperm]
  | cons x xs =>
    by_cases hcaller : ∀ y ∈ x :: xs, y.1 = x.1
    · -- One caller tells them all, so that both lists are what it tells.
      have hx : (x :: xs).filter (·.1 = x.1) = x :: xs :=
        List.filter_eq_self.mpr fun y hy => decide_eq_true (hcaller y hy)
      have hy : ys.filter (·.1 = x.1) = ys :=
        List.filter_eq_self.mpr fun y hy => decide_eq_true (hcaller y (hperm.mem_iff.mpr hy))
      rw [← hx, h, hy]
    · -- Two callers tell the same fault, and so does everyone else.
      push Not at hcaller
      obtain ⟨z, hz, hne⟩ := hcaller
      have hzx : z.2 = x.2 := (hagree z hz x List.mem_cons_self).resolve_right hne
      have hall : ∀ y ∈ x :: xs, y.2 = x.2 := by
        intro y hy
        by_cases hyx : y.1 = x.1
        · rw [← hzx]
          exact (hagree y hy z hz).resolve_right fun hyz => hne (hyz ▸ hyx)
        · exact (hagree y hy x List.mem_cons_self).resolve_right hyx
      have hsame (zs : List (κ × Fault)) (hzs : ∀ y ∈ zs, y ∈ x :: xs) :
          zs.map Prod.snd = List.replicate zs.length x.2 :=
        List.map_eq_replicate_iff.mpr fun y hy => hall y (hzs y hy)
      rw [hsame _ fun y hy => hy, hsame ys fun y hy => hperm.mem_iff.mpr hy, hperm.length_eq]

/-- Interleavings of the same callers are listed alike when ties agree. -/
theorem SameCallers.filter_map_eq (h : SameCallers xs ys) (hties : TiesAgree xs)
    (spot : Bytes × Int) :
    (xs.map Prod.snd).filter (·.spot = spot) = (ys.map Prod.snd).filter (·.spot = spot) := by
  rw [List.filter_map, List.filter_map]
  apply (h.filter _).map_eq
  intro x hx y hy
  obtain ⟨hx, hxspot⟩ := List.mem_filter.mp hx
  obtain ⟨hy, hyspot⟩ := List.mem_filter.mp hy
  exact hties x hx y hy ((of_decide_eq_true hxspot).trans (of_decide_eq_true hyspot).symm)

end Interleaving

/-- What can be asked of a report. -/
inductive Call where
  | tell (fault : Fault)
  | list
  | text
deriving DecidableEq, Repr

inductive Answer where
  /-- A fault that was told is handed back when it is fatal. -/
  | told (fatal : Option Fault)
  | listed (faults : List Fault)
  | text (text : Option Bytes)
deriving DecidableEq, Repr

def Call.fault? : Call → Option Fault
  | .tell f => some f
  | .list => none
  | .text => none

/-- The faults told by calls. -/
def Call.faults (calls : List Call) : List Fault := calls.filterMap fault?

def answer (r : Report) : Call → Answer
  | .tell f => .told (if r.isFatal f then some f else none)
  | .list => .listed r.sorted
  | .text => .text r.text?

def after (r : Report) : Call → Report
  | .tell f => r.add f
  | .list => r
  | .text => r

def answers : Report → List Call → List Answer
  | _, [] => []
  | r, call :: calls => r.answer call :: (r.after call).answers calls

/-- The answer that a call deserves when some faults have been told. -/
inductive Fits (harmless : List Bytes) (told : List Fault) : Call → Answer → Prop
  | harmless {f : Fault} (h : f.code ∈ harmless) : Fits harmless told (.tell f) (.told none)
  | fatal {f : Fault} (h : f.code ∉ harmless) : Fits harmless told (.tell f) (.told (some f))
  | list {listed : List Fault} (h : Arranges told listed) :
    Fits harmless told .list (.listed listed)
  | noText (h : told = []) : Fits harmless told .text (.text none)
  | text {listed : List Fault} (hne : told ≠ []) (h : Arranges told listed) :
    Fits harmless told .text (.text (some (joined listed)))

theorem fits_answer (r : Report) (call : Call) : Fits r.harmless r.faults call (r.answer call) := by
  cases call with
  | tell f =>
    by_cases h : f.code ∈ r.harmless
    · have hfatal : r.isFatal f = false := by
        rw [isFatal, List.contains_iff_mem.mpr h, Bool.not_true]
      rw [answer, hfatal]
      exact .harmless h
    · have hfatal : r.isFatal f = true := by
        rw [isFatal, Bool.not_eq_true', Bool.eq_false_iff, ne_eq, List.contains_iff_mem]
        exact h
      rw [answer, hfatal]
      exact .fatal h
  | list => exact .list (arranges_sorted r)
  | text =>
    rw [answer, text?]
    by_cases h : r.faults = []
    · rw [h]
      exact .noText rfl
    · rw [if_neg (by rwa [List.isEmpty_iff])]
      exact .text h (arranges_sorted r)

theorem after_eq (r : Report) (call : Call) :
    r.after call = ⟨r.harmless, r.faults ++ call.fault?.toList⟩ := by
  cases call <;> simp [after, add, Call.fault?]

theorem foldl_after (r : Report) (calls : List Call) :
    calls.foldl after r = ⟨r.harmless, r.faults ++ Call.faults calls⟩ := by
  induction calls generalizing r with
  | nil => simp [Call.faults]
  | cons call calls ih =>
    rw [List.foldl_cons, ih, after_eq, Call.faults, Call.faults, List.filterMap_cons]
    cases call.fault? <;> simp

theorem answers_append (r : Report) (calls rest : List Call) :
    r.answers (calls ++ rest) = r.answers calls ++ (calls.foldl after r).answers rest := by
  induction calls generalizing r with
  | nil => rfl
  | cons call calls ih =>
    rw [List.cons_append, answers, ih, answers, List.foldl_cons, List.cons_append]

theorem length_answers (r : Report) (calls : List Call) :
    (r.answers calls).length = calls.length := by
  induction calls generalizing r with
  | nil => rfl
  | cons call calls ih => rw [answers, List.length_cons, ih, List.length_cons]

/-- After some calls the next one is answered for the faults told until then. -/
theorem answers_append_cons (codes : List Bytes) (calls : List Call) (call : Call)
    (rest : List Call) :
    (empty codes).answers (calls ++ call :: rest) =
      (empty codes).answers calls ++
        answer ⟨codes, Call.faults calls⟩ call ::
          answers ⟨codes, Call.faults (calls ++ [call])⟩ rest := by
  have hcalls : calls.foldl after (empty codes) = ⟨codes, Call.faults calls⟩ := foldl_after _ _
  rw [answers_append, hcalls, answers, after_eq, Call.faults, Call.faults, List.filterMap_append,
    List.filterMap_cons]
  cases call.fault? <;> rfl

/-- Every call of a run is answered by the faults told before it, each as often as it was told, by
resource and offset and in the order of telling where these are equal; a fault is handed back just
when its code is not among the harmless ones. To ask for the list or the text changes no other
answer. Two interleavings of the same callers end in the same list if any two faults of one place
are equal or come from one caller. -/
theorem answers_fit (codes : List Bytes) {κ : Type} [DecidableEq κ] :
    (∀ calls call rest, ∃ answer,
      ((empty codes).answers (calls ++ call :: rest))[calls.length]? = some answer ∧
        Fits codes (Call.faults calls) call answer) ∧
    (∀ calls read rest, read.fault? = none →
      ((empty codes).answers (calls ++ read :: rest)).eraseIdx calls.length =
        (empty codes).answers (calls ++ rest)) ∧
    ∀ xs ys : List (κ × Fault), SameCallers xs ys → TiesAgree xs →
      ∀ calls calls', Call.faults calls = xs.map Prod.snd → Call.faults calls' = ys.map Prod.snd →
        ∃ listed,
          (empty codes).answers (calls ++ [.list]) =
            (empty codes).answers calls ++ [.listed listed] ∧
          (empty codes).answers (calls' ++ [.list]) =
            (empty codes).answers calls' ++ [.listed listed] := by
  refine ⟨?_, ?_, ?_⟩
  · intro calls call rest
    refine ⟨answer ⟨codes, Call.faults calls⟩ call, ?_, fits_answer ⟨codes, _⟩ call⟩
    rw [answers_append_cons, List.getElem?_append_right (Nat.le_of_eq (length_answers _ _)),
      length_answers, Nat.sub_self, List.getElem?_cons_zero]
  · intro calls read rest hread
    have hcalls : calls.foldl after (empty codes) = ⟨codes, Call.faults calls⟩ := foldl_after _ _
    have hfaults : Call.faults (calls ++ [read]) = Call.faults calls := by
      rw [Call.faults, List.filterMap_append, List.filterMap_cons_none hread, List.filterMap_nil,
        List.append_nil, Call.faults]
    rw [answers_append_cons, hfaults, answers_append, hcalls,
      List.eraseIdx_append_of_length_le (Nat.le_of_eq (length_answers _ _)), length_answers,
      Nat.sub_self, List.eraseIdx_cons_zero]
  · intro xs ys hsame hties calls calls' hcalls hcalls'
    have hsorted : sorted ⟨codes, Call.faults calls⟩ = sorted ⟨codes, Call.faults calls'⟩ := by
      apply sorted_eq_of_filter_eq
      intro spot
      rw [hcalls, hcalls', hsame.filter_map_eq hties]
    refine ⟨sorted ⟨codes, Call.faults calls⟩, answers_append_cons codes calls .list [], ?_⟩
    rw [hsorted]
    exact answers_append_cons codes calls' .list []

/-- One caller tells two faults of one place, the other a fault of another place. -/
def interleaved : List (Bool × Fault) :=
  [(false, .new ⟨bytes "b", 4, 1, 5⟩ Code.expected (bytes "first")),
    (true, .new (.ofUri (bytes "a")) Code.permissionDenied (bytes "denied")),
    (false, .new ⟨bytes "b", 4, 1, 5⟩ Code.expected (bytes "second"))]

def interleavedOtherwise : List (Bool × Fault) :=
  [(false, .new ⟨bytes "b", 4, 1, 5⟩ Code.expected (bytes "first")),
    (false, .new ⟨bytes "b", 4, 1, 5⟩ Code.expected (bytes "second")),
    (true, .new (.ofUri (bytes "a")) Code.permissionDenied (bytes "denied"))]

theorem interleaved_listed :
    SameCallers interleaved interleavedOtherwise ∧ TiesAgree interleaved ∧
    ∃ listed,
      (empty [Code.expected]).answers (interleaved.map (.tell ·.2) ++ [.list]) =
        [.told none, .told (some (.new (.ofUri (bytes "a")) Code.permissionDenied
          (bytes "denied"))), .told none, .listed listed] ∧
      (empty [Code.expected]).answers (interleavedOtherwise.map (.tell ·.2) ++ [.list]) =
        [.told none, .told none, .told (some (.new (.ofUri (bytes "a")) Code.permissionDenied
          (bytes "denied"))), .listed listed] := by
  have hsame : SameCallers interleaved interleavedOtherwise := by
    intro caller
    cases caller <;> rfl
  have hties : TiesAgree interleaved := by
    unfold TiesAgree
    decide +kernel
  obtain ⟨listed, h, h'⟩ := (answers_fit [Code.expected]).2.2 interleaved interleavedOtherwise hsame
    hties (interleaved.map (.tell ·.2)) (interleavedOtherwise.map (.tell ·.2)) rfl rfl
  exact ⟨hsame, hties, listed, h.trans rfl, h'.trans rfl⟩

end Report

end SchemaDoc
