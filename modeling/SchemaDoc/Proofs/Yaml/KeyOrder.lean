import Mathlib.Data.List.Induction
import Mathlib.Data.List.Lex
import Mathlib.Data.Nat.Cast.Order.Basic
import Mathlib.Tactic.NormNum
import SchemaDoc.Proofs.Data.Order
import SchemaDoc.Proofs.Text.Decimal
import SchemaDoc.Yaml.Write

/-! # The natural order of keys

Of two keys one comes first and the other does not, since something decides at
their first difference. For transitivity each key is given a list of numbers, its
weights, such that keys compare as their weights do. That takes digit runs whose
values fit into a word.
-/

namespace SchemaDoc.Yaml

variable {common run s t x y z : Bytes} {a b : UInt8}

theorem differenceLt_swap (hne : a ≠ b) :
    differenceLt common b y a x = !differenceLt common a x b y := by
  have hcode : decide (b < a) = !decide (a < b) := by
    rw [← decide_not, decide_eq_decide, UInt8.not_lt]
    exact ⟨UInt8.le_of_lt, fun h => UInt8.lt_of_le_of_ne h hne.symm⟩
  simp only [differenceLt, Bool.or_comm (b == 0x30)]
  cases Bytes.isLetter a <;> cases Bytes.isLetter b
  case true.true => exact hcode
  case true.false => rfl
  case false.true => exact (Bool.not_not _).symm
  case false.false =>
    dsimp only
    grind

theorem keyLtFrom_irrefl (common x : Bytes) : keyLtFrom common x x = false := by
  induction x generalizing common with
  | nil => rfl
  | cons a x ih => rw [keyLtFrom, if_pos rfl, ih]

theorem keyLtFrom_swap (hne : x ≠ y) : keyLtFrom common y x = !keyLtFrom common x y := by
  induction x generalizing common y with
  | nil =>
    cases y with
    | nil => exact absurd rfl hne
    | cons b y => rfl
  | cons a x ih =>
    cases y with
    | nil => rfl
    | cons b y =>
      by_cases hab : a = b
      · subst hab
        rw [keyLtFrom, keyLtFrom, if_pos rfl, if_pos rfl, ih fun h => hne (congrArg _ h)]
      · rw [keyLtFrom, keyLtFrom, if_neg hab, if_neg (Ne.symm hab), differenceLt_swap hab]

theorem keyLe_antisymm (hxy : keyLe x y = true) (hyx : keyLe y x = true) : x = y := by
  by_contra hne
  rw [keyLe, Bool.not_eq_true'] at hxy hyx
  rw [keyLtFrom_swap hne, hyx] at hxy
  nomatch hxy

/-- The digits at the start of a text. -/
def lead (s : Bytes) : Bytes := s.takeWhile Bytes.isDigit

theorem lead_cons (h : Bytes.isDigit b = true) (s : Bytes) : lead (b :: s) = b :: lead s :=
  List.takeWhile_cons_of_pos h

theorem isDigit_of_mem_lead (s : Bytes) : ∀ b ∈ lead s, Bytes.isDigit b = true :=
  List.all_eq_true.mp List.all_takeWhile

/-- The weights of a text behind a run of digits. A run weighs two, its value and its length, any
other byte its class and its code. A letter directly behind a run has the least class and comes
even before the end of the run; other letters have the greatest class. -/
def weights (run : Bytes) : Bytes → List Nat
  | [] => ofRun
  | b :: s =>
    if Bytes.isDigit b then weights (run ++ [b]) s
    else
      ofRun ++
        (if Bytes.isLetter b then if run = [] then 3 else 0 else 1) :: b.toNat :: weights [] s
where
  ofRun : List Nat := if run = [] then [] else [2, Bytes.digitsValue run, run.length]

theorem weights_cons (h : Bytes.isDigit b = false) :
    weights run (b :: s) = weights.ofRun run ++
      (if Bytes.isLetter b then if run = [] then 3 else 0 else 1) :: b.toNat :: weights [] s := by
  rw [weights, if_neg (by simp [h])]

theorem weights_append (run t : Bytes) (h : ∀ b ∈ s, Bytes.isDigit b = true) :
    weights run (s ++ t) = weights (run ++ s) t := by
  induction s generalizing run with
  | nil => rw [List.nil_append, List.append_nil]
  | cons b s ih =>
    obtain ⟨hb, hs⟩ := List.forall_mem_cons.mp h
    rw [List.cons_append, weights, if_pos hb, ih _ hs, List.append_assoc, List.singleton_append]

/-- A run that goes on weighs as much as the longer run. -/
theorem exists_weights (h : Bytes.isDigit b = true) (run s : Bytes) :
    ∃ ws, weights run (b :: s) =
      2 :: Bytes.digitsValue (run ++ lead (b :: s)) :: (run ++ lead (b :: s)).length :: ws := by
  have happend := weights_append run ((b :: s).dropWhile Bytes.isDigit)
    (isDigit_of_mem_lead (b :: s))
  rw [lead, List.takeWhile_append_dropWhile, ← lead] at happend
  have hne : run ++ lead (b :: s) ≠ [] := by simp [lead_cons h]
  rw [happend]
  cases hrest : (b :: s).dropWhile Bytes.isDigit with
  | nil => exact ⟨[], by rw [weights, weights.ofRun, if_neg hne]⟩
  | cons c rest =>
    have hc := List.head?_dropWhile_not Bytes.isDigit (b :: s)
    rw [hrest] at hc
    exact ⟨_, by rw [weights_cons (by simpa using hc), weights.ofRun, if_neg hne]; rfl⟩

/-- A run that has ended weighs less than one that goes on. -/
theorem ofRun_append_lt_weights (hne : run ≠ []) (hb : Bytes.isDigit b = true) (ws : List Nat) :
    weights.ofRun run ++ ws < weights run (b :: y) := by
  obtain ⟨ws', hws'⟩ := exists_weights hb run y
  have hlength : run.length < (run ++ lead (b :: y)).length := by simp [lead_cons hb]
  have hvalue : Bytes.digitsValue run ≤ Bytes.digitsValue (run ++ lead (b :: y)) := by
    rw [Bytes.digitsValue_append]
    exact (Nat.le_mul_of_pos_right _ (by positivity)).trans (Nat.le_add_right _ _)
  rw [weights.ofRun, if_neg hne, hws']
  refine List.cons_lt_cons_self.mpr (List.cons_lt_cons_iff.mpr ?_)
  rcases hvalue.lt_or_eq with hlt | heq
  · exact .inl hlt
  · exact .inr ⟨heq, List.cons_lt_cons_iff.mpr (.inl hlength)⟩

/-- Behind a run that is not zero a longer run is greater. -/
theorem runs_lt_of_length_lt {c i j p q : Nat} (hc : 0 < c) (hp : p < 10 ^ i) (hij : i < j) :
    c * 10 ^ i + p < c * 10 ^ j + q := by
  calc c * 10 ^ i + p < c * 10 ^ i + 10 ^ i := Nat.add_lt_add_left hp _
    _ ≤ c * 10 ^ i + c * 10 ^ i := Nat.add_le_add_left (Nat.le_mul_of_pos_left _ hc) _
    _ ≤ c * 10 ^ i * 10 := by omega
    _ = c * 10 ^ (i + 1) := by rw [pow_succ, Nat.mul_assoc]
    _ ≤ c * 10 ^ j := Nat.mul_le_mul_left _ (Nat.pow_le_pow_right (by decide) hij)
    _ ≤ c * 10 ^ j + q := Nat.le_add_right _ _

/-- Behind a run that is not zero runs compare as they do behind a one. -/
theorem runs_lt_of_marked {c i j p q : Nat} (hc : 0 < c) (hp : p < 10 ^ i) (hq : q < 10 ^ j)
    (h : 10 ^ i + p < 10 ^ j + q) : c * 10 ^ i + p < c * 10 ^ j + q := by
  rcases Nat.lt_trichotomy i j with hij | rfl | hij
  · exact runs_lt_of_length_lt hc hp hij
  · omega
  · have := runs_lt_of_length_lt (q := p) Nat.one_pos hq hij
    omega

/-- Runs that do not start with a zero compare the same behind another run as by themselves. -/
theorem runs_lt_of_unmarked {c i j p q : Nat} (hc : 0 < c) (hp : p < 10 ^ (i + 1))
    (hp' : 10 ^ i ≤ p) (hq : q < 10 ^ (j + 1)) (h : p < q) :
    c * 10 ^ (i + 1) + p < c * 10 ^ (j + 1) + q := by
  rcases Nat.lt_trichotomy i j with hij | rfl | hij
  · exact runs_lt_of_length_lt hc hp (by omega)
  · omega
  · have := Nat.pow_le_pow_right (n := 10) (by decide) hij
    omega

/-- A value below the sign bit of a word does not wrap around. -/
theorem runValue_eq (n : Nat) (s : Bytes)
    (h : n * 10 ^ (lead s).length + Bytes.digitsValue (lead s) < 2 ^ 63) :
    runValue n s = (n * 10 ^ (lead s).length + Bytes.digitsValue (lead s) : Nat) := by
  rw [runValue, ← lead]
  generalize lead s = digits at h
  induction digits generalizing n with
  | nil => simp [Bytes.digitsValue]
  | cons b digits ih =>
    have hvalue : n * 10 ^ (b :: digits).length + Bytes.digitsValue (b :: digits) =
        (n * 10 + (b.toNat - 0x30)) * 10 ^ digits.length + Bytes.digitsValue digits := by
      have hsingle : Bytes.digitsValue [b] = b.toNat - 0x30 := by simp [Bytes.digitsValue]
      rw [← List.singleton_append, Bytes.digitsValue_append, hsingle, List.length_append,
        List.length_singleton, Nat.add_comm 1, pow_succ]
      ring
    rw [hvalue] at h ⊢
    have hle : n * 10 + (b.toNat - 0x30) ≤
        (n * 10 + (b.toNat - 0x30)) * 10 ^ digits.length + Bytes.digitsValue digits :=
      (Nat.le_mul_of_pos_right _ (by positivity)).trans (Nat.le_add_right _ _)
    have hword : ((n : Int) * 10 + (b.toNat - 0x30 : Nat)).bmod 0x10000000000000000 =
        (n * 10 + (b.toNat - 0x30) : Nat) := by
      rw [Int.bmod_eq_of_le] <;> push_cast <;> omega
    rw [List.foldl_cons, hword, ih _ h]

theorem isLetter_of_isDigit (h : Bytes.isDigit b = true) : Bytes.isLetter b = false := by
  rw [Bytes.isDigit_iff] at h
  simp only [Bytes.isLetter, Bytes.isUpper, Bytes.isLower, Bool.or_eq_false_iff,
    Bool.and_eq_false_iff, decide_eq_false_iff_not, UInt8.le_iff_toNat_le]
  constructor <;> left <;> simp <;> omega

theorem differenceLt_letter_left (hrun : run = (lead common).reverse)
    (ha : Bytes.isLetter a = true) (hb : Bytes.isLetter b = false) :
    differenceLt common a x b y = !decide (run = []) := by
  subst hrun
  cases common with
  | nil => simp [differenceLt, lead, ha, hb]
  | cons c common => cases hc : Bytes.isDigit c <;> simp [differenceLt, lead, ha, hb, hc]

theorem differenceLt_letter_right (hrun : run = (lead common).reverse)
    (ha : Bytes.isLetter a = false) (hb : Bytes.isLetter b = true) :
    differenceLt common a x b y = decide (run = []) := by
  subst hrun
  cases common with
  | nil => simp [differenceLt, lead, ha, hb]
  | cons c common => cases hc : Bytes.isDigit c <;> simp [differenceLt, lead, ha, hb, hc]

theorem differenceLt_symbols (ha : Bytes.isDigit a = false) (hb : Bytes.isDigit b = false)
    (ha' : Bytes.isLetter a = false) (hb' : Bytes.isLetter b = false) :
    differenceLt common a x b y = decide (a < b) := by
  simp [differenceLt, runValue, ha, hb, ha', hb']

/-- What is put in front of the runs at a difference: a one behind a run that is not zero if one of
them starts with a zero, and otherwise nothing. -/
theorem exists_start (hrun : run = (lead common).reverse) (a b : UInt8) :
    ∃ n : Nat, (if (a == 0x30 || b == 0x30) && hasNonzeroDigit common then 1 else 0 : Int) = n ∧
      (n = 1 ∧ 0 < Bytes.digitsValue run ∨
        n = 0 ∧ (Bytes.digitsValue run = 0 ∨ 0 < Bytes.digitsValue run ∧ a ≠ 0x30 ∧ b ≠ 0x30)) := by
  have hnonzero : hasNonzeroDigit common = true ↔ 0 < Bytes.digitsValue run := by
    have hdigits : ∀ b ∈ run, Bytes.isDigit b = true := by
      intro b hb
      rw [hrun, List.mem_reverse] at hb
      exact isDigit_of_mem_lead common b hb
    rw [Bytes.digitsValue_pos_iff hdigits, hrun, List.any_reverse, hasNonzeroDigit, lead]
  by_cases hc : 0 < Bytes.digitsValue run
  · by_cases hzero : a = 0x30 ∨ b = 0x30
    · exact ⟨1, by simp [hnonzero.mpr hc, hzero], .inl ⟨rfl, hc⟩⟩
    · rw [not_or] at hzero
      exact ⟨0, by simp [hzero], .inr ⟨rfl, .inr ⟨hc, hzero⟩⟩⟩
  · have hfalse : hasNonzeroDigit common = false := Bool.eq_false_iff.mpr (mt hnonzero.mp hc)
    exact ⟨0, by simp [hfalse], .inr ⟨rfl, .inl (by omega)⟩⟩

/-- The value of a run with what is put in front of it. -/
theorem runValue_start {n : Nat} (hn : n ≤ Bytes.digitsValue run)
    (h : Bytes.digitsValue (run ++ lead s) < 2 ^ 63) :
    runValue n s = (n * 10 ^ (lead s).length + Bytes.digitsValue (lead s) : Nat) := by
  rw [Bytes.digitsValue_append] at h
  exact runValue_eq n s ((Nat.add_le_add_right (Nat.mul_le_mul_right _ hn) _).trans_lt h)

/-- Where only one of two runs goes on, its key does not come first. -/
theorem differenceLt_of_isDigit (ha : Bytes.isDigit a = true) (hb : Bytes.isDigit b = false)
    (hb' : Bytes.isLetter b = false) (hrun : run = (lead common).reverse)
    (hx : Bytes.digitsValue (run ++ lead (a :: x)) < 2 ^ 63) :
    differenceLt common a x b y = false := by
  obtain ⟨n, hn, hcases⟩ := exists_start hrun a b
  have hvalue := runValue_start (n := n) (by omega) hx
  have hstay : runValue n (b :: y) = n := by simp [runValue, hb]
  have hle : (n : Int) ≤
      (n * 10 ^ (lead (a :: x)).length + Bytes.digitsValue (lead (a :: x)) : Nat) :=
    Int.ofNat_le.mpr
      ((Nat.le_mul_of_pos_right _ (by positivity)).trans (Nat.le_add_right _ _))
  simp only [differenceLt, isLetter_of_isDigit ha, hb', hn, hvalue, hstay,
    List.takeWhile_cons_of_pos ha, List.takeWhile_cons_of_neg (Bool.not_eq_true _ ▸ hb)]
  split
  · exact decide_eq_false (Int.not_lt.mpr hle)
  · rw [if_pos (by simp)]
    exact decide_eq_false (Nat.not_lt_zero _)

/-- Where both runs go on, they compare as numbers and then by length. -/
theorem runs_lt_of_differenceLt (ha : Bytes.isDigit a = true) (hb : Bytes.isDigit b = true)
    (hne : a ≠ b) (hrun : run = (lead common).reverse)
    (hx : Bytes.digitsValue (run ++ lead (a :: x)) < 2 ^ 63)
    (hy : Bytes.digitsValue (run ++ lead (b :: y)) < 2 ^ 63)
    (h : differenceLt common a x b y = true) :
    Bytes.digitsValue (run ++ lead (a :: x)) < Bytes.digitsValue (run ++ lead (b :: y)) ∨
      Bytes.digitsValue (run ++ lead (a :: x)) = Bytes.digitsValue (run ++ lead (b :: y)) ∧
        (lead (a :: x)).length < (lead (b :: y)).length := by
  have hp := Bytes.digitsValue_lt (isDigit_of_mem_lead (a :: x))
  have hq := Bytes.digitsValue_lt (isDigit_of_mem_lead (b :: y))
  obtain ⟨n, hn, hcases⟩ := exists_start hrun a b
  simp only [differenceLt, isLetter_of_isDigit ha, isLetter_of_isDigit hb, hn,
    runValue_start (n := n) (by omega) hx, runValue_start (n := n) (by omega) hy] at h
  rw [Bytes.digitsValue_append, Bytes.digitsValue_append]
  have hstarted : n * 10 ^ (lead (a :: x)).length + Bytes.digitsValue (lead (a :: x)) <
        n * 10 ^ (lead (b :: y)).length + Bytes.digitsValue (lead (b :: y)) ∨
      n * 10 ^ (lead (a :: x)).length + Bytes.digitsValue (lead (a :: x)) =
        n * 10 ^ (lead (b :: y)).length + Bytes.digitsValue (lead (b :: y)) ∧
      (lead (a :: x)).length < (lead (b :: y)).length := by
    change (if _ then _ else if (lead (a :: x)).length ≠ (lead (b :: y)).length then
      decide ((lead (a :: x)).length < (lead (b :: y)).length) else _) = true at h
    split at h
    · exact .inl (Int.ofNat_lt.mp (of_decide_eq_true h))
    · next heq =>
      have heq := Int.ofNat_inj.mp (not_not.mp heq)
      split at h
      · exact .inr ⟨heq, of_decide_eq_true h⟩
      · next hlength =>
        -- Runs of one value and one length are the same, but these differ at once.
        rw [not_not] at hlength
        rw [hlength, Nat.add_left_cancel_iff] at heq
        have hlead := Bytes.digitsValue_inj (isDigit_of_mem_lead _) (isDigit_of_mem_lead _)
          hlength heq
        rw [lead_cons ha, lead_cons hb] at hlead
        exact absurd (List.cons.inj hlead).1 hne
  rcases hcases with ⟨rfl, hc⟩ | ⟨rfl, hc | ⟨hc, hza, hzb⟩⟩
  · rw [Nat.one_mul, Nat.one_mul] at hstarted
    rcases hstarted with hlt | ⟨-, hlength⟩
    · exact .inl (runs_lt_of_marked hc hp hq hlt)
    · exact .inl (runs_lt_of_length_lt hc hp hlength)
  · rwa [hc]
  · rw [Nat.zero_mul, Nat.zero_mul, Nat.zero_add, Nat.zero_add] at hstarted
    rcases hstarted with hlt | ⟨-, hlength⟩
    · rw [lead_cons ha] at hp hlt ⊢
      rw [lead_cons hb] at hq hlt ⊢
      exact .inl (runs_lt_of_unmarked hc hp (Bytes.pow_le_digitsValue ha hza _) hq hlt)
    · exact .inl (runs_lt_of_length_lt hc hp hlength)

theorem weights_lt_of_differenceLt (hne : a ≠ b) (hrun : run = (lead common).reverse)
    (hx : Bytes.digitsValue (run ++ lead (a :: x)) < 2 ^ 63)
    (hy : Bytes.digitsValue (run ++ lead (b :: y)) < 2 ^ 63)
    (h : differenceLt common a x b y = true) : weights run (a :: x) < weights run (b :: y) := by
  cases ha : Bytes.isDigit a <;> cases hb : Bytes.isDigit b
  case true.true =>
    obtain ⟨ws, hws⟩ := exists_weights ha run x
    obtain ⟨ws', hws'⟩ := exists_weights hb run y
    rw [hws, hws', List.cons_lt_cons_self, List.cons_lt_cons_iff, List.cons_lt_cons_iff,
      List.length_append, List.length_append]
    rcases runs_lt_of_differenceLt ha hb hne hrun hx hy h with hlt | ⟨heq, hlt⟩
    · exact .inl hlt
    · exact .inr ⟨heq, .inl (Nat.add_lt_add_left hlt _)⟩
  case true.false =>
    obtain ⟨ws, hws⟩ := exists_weights ha run x
    cases hb' : Bytes.isLetter b
    case false =>
      rw [differenceLt_of_isDigit ha hb hb' hrun hx] at h
      nomatch h
    case true =>
      rw [differenceLt_letter_right hrun (isLetter_of_isDigit ha) hb', decide_eq_true_eq] at h
      rw [hws, weights_cons hb, if_pos hb', if_pos h, h]
      exact List.cons_lt_cons_iff.mpr (.inl (by decide))
  case false.true =>
    obtain ⟨ws, hws⟩ := exists_weights hb run y
    rw [weights_cons ha]
    by_cases hempty : run = []
    · cases ha' : Bytes.isLetter a
      case true =>
        rw [differenceLt_letter_left hrun ha' (isLetter_of_isDigit hb), hempty] at h
        nomatch h
      case false =>
        rw [hws, weights.ofRun, if_pos hempty, if_neg Bool.false_ne_true]
        exact List.cons_lt_cons_iff.mpr (.inl (by decide))
    · exact ofRun_append_lt_weights hempty hb _
  case false.false =>
    rw [weights_cons ha, weights_cons hb]
    refine List.append_left_lt (List.cons_lt_cons_iff.mpr ?_)
    cases ha' : Bytes.isLetter a <;> cases hb' : Bytes.isLetter b
    case true.true =>
      simp only [differenceLt, ha', hb', decide_eq_true_eq, UInt8.lt_iff_toNat_lt] at h
      exact .inr ⟨rfl, List.cons_lt_cons_iff.mpr (.inl h)⟩
    case true.false =>
      rw [differenceLt_letter_left hrun ha' hb', Bool.not_eq_true', decide_eq_false_iff_not] at h
      rw [if_pos rfl, if_neg h]
      exact .inl (by decide)
    case false.true =>
      rw [differenceLt_letter_right hrun ha' hb', decide_eq_true_eq] at h
      rw [if_pos rfl, if_pos h]
      exact .inl (by decide)
    case false.false =>
      rw [differenceLt_symbols ha hb ha' hb', decide_eq_true_eq, UInt8.lt_iff_toNat_lt] at h
      exact .inr ⟨rfl, List.cons_lt_cons_iff.mpr (.inl h)⟩

/-- The digit runs of a key are numbers below the sign bit of a word. -/
def FitsWord (key : Bytes) : Prop :=
  ∀ run, run <:+: key → (∀ b ∈ run, Bytes.isDigit b = true) → Bytes.digitsValue run < 2 ^ 63

/-- Eighteen digits always fit. -/
theorem fitsWord_of_length_le (h : x.length ≤ 18) : FitsWord x := by
  intro run hrun hdigits
  calc Bytes.digitsValue run < 10 ^ run.length := Bytes.digitsValue_lt hdigits
    _ ≤ 10 ^ 18 := Nat.pow_le_pow_right (by decide) (hrun.length_le.trans h)
    _ < 2 ^ 63 := by decide

theorem FitsWord.run_lt (h : FitsWord (common.reverse ++ x)) :
    Bytes.digitsValue ((lead common).reverse ++ lead x) < 2 ^ 63 := by
  apply h
  · obtain ⟨s, hs⟩ := List.takeWhile_prefix (p := Bytes.isDigit) (l := common)
    obtain ⟨t, ht⟩ := List.takeWhile_prefix (p := Bytes.isDigit) (l := x)
    refine ⟨s.reverse, t, ?_⟩
    rw [← congrArg List.reverse hs, List.reverse_append, lead, lead, List.append_assoc,
      List.append_assoc, List.append_assoc, ht]
  · intro b hb
    rw [List.mem_append, List.mem_reverse] at hb
    exact hb.elim (isDigit_of_mem_lead common b) (isDigit_of_mem_lead x b)

theorem weights_lt_of_keyLtFrom (common : Bytes) (hx : FitsWord (common.reverse ++ x))
    (hy : FitsWord (common.reverse ++ y)) (h : keyLtFrom common x y = true) :
    weights (lead common).reverse x < weights (lead common).reverse y := by
  induction x generalizing common y with
  | nil =>
    cases y with
    | nil => nomatch h
    | cons b y =>
      rw [weights, ← List.append_nil (weights.ofRun _)]
      cases hb : Bytes.isDigit b
      case false =>
        rw [weights_cons hb]
        exact List.append_left_lt (List.nil_lt_cons _ _)
      case true =>
        by_cases hempty : (lead common).reverse = []
        · obtain ⟨ws, hws⟩ := exists_weights hb (lead common).reverse y
          rw [hws, weights.ofRun, if_pos hempty]
          exact List.nil_lt_cons _ _
        · exact ofRun_append_lt_weights hempty hb []
  | cons a x ih =>
    cases y with
    | nil => nomatch h
    | cons b y =>
      by_cases hab : a = b
      · subst hab
        rw [keyLtFrom, if_pos rfl] at h
        have hlt := ih _ (by simpa using hx) (by simpa using hy) h
        cases ha : Bytes.isDigit a
        case true =>
          rw [lead_cons ha, List.reverse_cons] at hlt
          rwa [weights, weights, if_pos ha, if_pos ha]
        case false =>
          rw [lead, List.takeWhile_cons_of_neg (by simp [ha])] at hlt
          rw [weights_cons ha, weights_cons ha]
          exact List.append_left_lt (List.cons_lt_cons_self.mpr (List.cons_lt_cons_self.mpr hlt))
      · rw [keyLtFrom, if_neg hab] at h
        exact weights_lt_of_differenceLt hab rfl hx.run_lt hy.run_lt h

theorem weights_lt_of_keyLt (hx : FitsWord x) (hy : FitsWord y) (h : keyLtFrom [] x y = true) :
    weights [] x < weights [] y :=
  weights_lt_of_keyLtFrom [] hx hy h

/-- Keys compare as their weights do. -/
theorem keyLe_eq (hx : FitsWord x) (hy : FitsWord y) :
    keyLe x y = decide (weights [] x ≤ weights [] y) := by
  by_cases hxy : x = y
  · rw [hxy, keyLe, keyLtFrom_irrefl, decide_eq_true le_rfl]
    rfl
  · cases h : keyLtFrom [] y x
    case true =>
      rw [keyLe, h, decide_eq_false (weights_lt_of_keyLt hy hx h).not_ge]
      rfl
    case false =>
      rw [keyLtFrom_swap hxy, Bool.not_eq_false'] at h
      rw [keyLe, keyLtFrom_swap hxy, h, decide_eq_true (weights_lt_of_keyLt hx hy h).le]
      rfl

theorem keyLt_trans (hx : FitsWord x) (hy : FitsWord y) (hz : FitsWord z)
    (hxy : keyLtFrom [] x y = true) (hyz : keyLtFrom [] y z = true) : keyLtFrom [] x z = true := by
  have hlt := (weights_lt_of_keyLt hx hy hxy).trans (weights_lt_of_keyLt hy hz hyz)
  have hle := keyLe_eq hz hx
  rwa [decide_eq_false hlt.not_ge, keyLe, Bool.not_eq_false'] at hle

/-- Entries whose keys fit into a word are sorted into one order, whatever order they come in. -/
theorem sortEntries_keyLe_eq_of_perm {α : Type} {entries entries' : List (Bytes × α)}
    (hfits : ∀ e ∈ entries, FitsWord e.1) (hnodup : (entries.map Prod.fst).Nodup)
    (hperm : entries'.Perm entries) :
    Data.sortEntries keyLe entries' = Data.sortEntries keyLe entries := by
  have hweights {l : List (Bytes × α)} (h : ∀ e ∈ l, FitsWord e.1) :
      Data.sortEntries keyLe l =
        Data.sortEntries (fun x y => decide (weights [] x ≤ weights [] y)) l :=
    Data.sortEntries_congr fun a ha b hb => keyLe_eq (h a ha) (h b hb)
  rw [hweights hfits, hweights fun e he => hfits e (hperm.mem_iff.mp he)]
  refine Data.sortEntries_eq_of_perm ?_ ?_ ?_ hnodup hperm
  · intro a b c hab hbc
    exact decide_eq_true ((of_decide_eq_true hab).trans (of_decide_eq_true hbc))
  · intro a b
    rw [Bool.or_eq_true, decide_eq_true_eq, decide_eq_true_eq]
    exact le_total _ _
  · intro a ha b hb hab hba
    rw [← keyLe_eq (hfits a ha) (hfits b hb)] at hab
    rw [← keyLe_eq (hfits b hb) (hfits a ha)] at hba
    exact keyLe_antisymm hab hba

theorem writeEntries_eq (column : Nat) (entries : List (Bytes × Data)) :
    writeEntries column entries = entries.map fun e =>
      (e.1, behindKey (nestedColumn column) e.2 (write (nestedColumn column) e.2)) := by
  induction entries with
  | nil => rfl
  | cons e entries ih => rw [writeEntries, ih, List.map_cons]

/-- The text of an entry of a map that stands at a column. -/
def entryText (column : Nat) (e : Bytes × Data) : Bytes :=
  entry column e.1 (behindKey (nestedColumn column) e.2 (write (nestedColumn column) e.2))

theorem write_map (column : Nat) {entries : List (Bytes × Data)} (hne : entries ≠ []) :
    write column (.map entries) =
      stack column ((Data.sortEntries keyLe entries).map (entryText column)) := by
  obtain ⟨e, entries, rfl⟩ := List.exists_cons_of_ne_nil hne
  rw [write, writeEntries_eq, ← Data.map_sortEntries fun v =>
    behindKey (nestedColumn column) v (write (nestedColumn column) v), List.map_map]
  rfl

theorem write_map_eq_of_perm (column : Nat) {entries entries' : List (Bytes × Data)}
    (hfits : ∀ e ∈ entries, FitsWord e.1) (hnodup : (entries.map Prod.fst).Nodup)
    (hperm : entries'.Perm entries) :
    write column (.map entries') = write column (.map entries) := by
  by_cases hempty : entries = []
  · subst hempty
    rw [List.perm_nil.mp hperm]
  · have hempty' : entries' ≠ [] := fun h => hempty (List.nil_perm.mp (h ▸ hperm))
    rw [write_map column hempty, write_map column hempty',
      sortEntries_keyLe_eq_of_perm hfits hnodup hperm]

end SchemaDoc.Yaml
