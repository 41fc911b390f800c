import SchemaDoc.Proofs.Grammar.Word

/-! # Number literals

A number literal has a whole part and three parts that may be missing: a minus
sign, a fraction and an exponent. Each part has its words and its length at the
start of a text. A literal is found whole when no point and no letter, digit or
underscore follows it.
-/

namespace SchemaDoc.Grammar

variable {p : UInt8 → Bool} {n : Nat} {r s t : Bytes}

def IsDigits (s : Bytes) : Prop := s ≠ [] ∧ ∀ b ∈ s, Bytes.isDigit b = true

def IsMinus (s : Bytes) : Prop := s = [] ∨ s = [0x2D]

/-- A zero, or digits that do not start with one. -/
def IsWhole (s : Bytes) : Prop :=
  s = [0x30] ∨ ∃ d ds, s = d :: ds ∧ d ≠ 0x30 ∧ ∀ b ∈ d :: ds, Bytes.isDigit b = true

/-- Nothing, or a point and digits. -/
def IsFraction (s : Bytes) : Prop := s = [] ∨ ∃ ds, IsDigits ds ∧ s = 0x2E :: ds

def IsSign (s : Bytes) : Prop := s = [] ∨ s = [0x2B] ∨ s = [0x2D]

def isExponentMark (b : UInt8) : Bool := b == 0x65 || b == 0x45

/-- Nothing, or an exponent mark, an optional sign and digits. -/
def IsExponent (s : Bytes) : Prop :=
  s = [] ∨ ∃ mark sign ds, isExponentMark mark = true ∧ IsSign sign ∧ IsDigits ds ∧
    s = mark :: (sign ++ ds)

/-- The words `-? (0 | [1-9][0-9]*) (. [0-9]+)? ([Ee] [+-]? [0-9]+)?`. -/
def IsNumber (s : Bytes) : Prop :=
  ∃ minus whole fraction exponent, IsMinus minus ∧ IsWhole whole ∧ IsFraction fraction ∧
    IsExponent exponent ∧ s = minus ++ (whole ++ (fraction ++ exponent))

section Parts

variable {whole fraction exponent : Bytes}

theorem isDigits_of_isWhole (h : IsWhole whole) : IsDigits whole := by
  rcases h with rfl | ⟨d, ds, rfl, -, hds⟩
  · exact ⟨by simp, List.forall_mem_singleton.mpr rfl⟩
  · exact ⟨by simp, hds⟩

/-- A number starts with a minus sign or a digit. -/
theorem IsNumber.exists_first {s : Bytes} (h : IsNumber s) :
    ∃ b t, s = b :: t ∧ (b = 0x2D ∨ Bytes.isDigit b = true) := by
  obtain ⟨minus, whole, fraction, exponent, hminus, hwhole, -, -, rfl⟩ := h
  rcases hminus with rfl | rfl
  · obtain ⟨hne, hdigits⟩ := isDigits_of_isWhole hwhole
    obtain ⟨b, t, rfl⟩ := List.exists_cons_of_ne_nil hne
    exact ⟨b, _, rfl, .inr (hdigits b List.mem_cons_self)⟩
  · exact ⟨0x2D, _, rfl, .inl rfl⟩

theorem ne_of_isDigit {b : UInt8} (h : Bytes.isDigit b = true) :
    b ≠ 0x2D ∧ b ≠ 0x2E ∧ isExponentMark b = false := by
  refine ⟨?_, ?_, ?_⟩
  · rintro rfl
    exact absurd h (by decide)
  · rintro rfl
    exact absurd h (by decide)
  · rw [Bool.eq_false_iff]
    intro hmark
    rw [isExponentMark, Bool.or_eq_true, beq_iff_eq, beq_iff_eq] at hmark
    rcases hmark with rfl | rfl <;> exact absurd h (by decide)

/-- A literal is cut into its parts at the exponent mark and at the point. -/
theorem cut_parts (hwhole : ∀ b ∈ whole, b ≠ 0x2E ∧ isExponentMark b = false)
    (hfraction : IsFraction fraction) (hexponent : IsExponent exponent) :
    (whole ++ (fraction ++ exponent)).takeWhile (!isExponentMark ·) = whole ++ fraction ∧
      (whole ++ (fraction ++ exponent)).dropWhile (!isExponentMark ·) = exponent ∧
      (whole ++ fraction).takeWhile (· != 0x2E) = whole ∧
      (whole ++ fraction).dropWhile (· != 0x2E) = fraction := by
  have hmantissa : ∀ b ∈ whole ++ fraction, (!isExponentMark b) = true := by
    intro b hb
    rw [Bool.not_eq_true']
    rcases List.mem_append.mp hb with hb | hb
    · exact (hwhole b hb).2
    · rcases hfraction with rfl | ⟨ds, ⟨-, hds⟩, rfl⟩
      · nomatch hb
      · rcases List.mem_cons.mp hb with rfl | hb
        · rfl
        · exact (ne_of_isDigit (hds b hb)).2.2
  have hmark : Stops (!isExponentMark ·) exponent := by
    rcases hexponent with rfl | ⟨mark, s, ds, hmark, -, -, rfl⟩
    · trivial
    · simpa using hmark
  have hpoint : ∀ b ∈ whole, (b != 0x2E) = true := by
    intro b hb
    simpa using (hwhole b hb).1
  have hbehind : Stops (· != 0x2E) fraction := by
    rcases hfraction with rfl | ⟨ds, -, rfl⟩ <;> simp
  rw [← List.append_assoc]
  exact ⟨takeWhile_append_of_stops hmantissa hmark, dropWhile_append_of_stops hmantissa hmark,
    takeWhile_append_of_stops hpoint hbehind, dropWhile_append_of_stops hpoint hbehind⟩

end Parts

namespace Lexeme

private theorem minusLength_cons (b : UInt8) (s : Bytes) :
    minusLength (b :: s) = if b = 0x2D then 1 else 0 := by
  split
  · next h => rw [h, minusLength]
  · next h => simp [minusLength, h]

theorem minusLength_append (ht : IsMinus t) (hr : Stops (· == 0x2D) r) :
    minusLength (t ++ r) = t.length := by
  rcases ht with rfl | rfl
  · cases r with
    | nil => rfl
    | cons b r =>
      have hb : b ≠ 0x2D := by simpa [Stops] using hr
      rw [List.nil_append, minusLength_cons, if_neg hb, List.length_nil]
  · rfl

theorem exists_minus (s : Bytes) : ∃ t r, s = t ++ r ∧ IsMinus t ∧ minusLength s = t.length := by
  cases s with
  | nil => exact ⟨[], [], rfl, .inl rfl, rfl⟩
  | cons b s =>
    rw [minusLength_cons]
    split
    · next h => exact ⟨[0x2D], s, by rw [h]; rfl, .inr rfl, rfl⟩
    · exact ⟨[], b :: s, rfl, .inl rfl, rfl⟩

theorem minusLength_append_line (s r : Bytes) :
    minusLength (s ++ 0x0A :: r) = minusLength s := by
  cases s with
  | nil => rfl
  | cons b s => rw [List.cons_append, minusLength_cons, minusLength_cons]

theorem whole?_append (ht : IsWhole t) (hr : Stops Bytes.isDigit r) :
    whole? (t ++ r) = some t.length := by
  rcases ht with rfl | ⟨d, ds, rfl, hd, hds⟩
  · rfl
  · rw [List.cons_append, whole?, if_neg hd, if_pos (hds d (by simp)),
      runLength_append (fun b hb => hds b (by simp [hb])) hr, List.length_cons]

theorem exists_le_whole? (ht : IsWhole t) (r : Bytes) :
    ∃ n, whole? (t ++ r) = some n ∧ t.length ≤ n := by
  rcases ht with rfl | ⟨d, ds, rfl, hd, hds⟩
  · exact ⟨1, rfl, Nat.le_refl 1⟩
  · refine ⟨runLength Bytes.isDigit (ds ++ r) + 1, ?_, ?_⟩
    · rw [List.cons_append, whole?, if_neg hd, if_pos (hds d (by simp))]
    · exact Nat.succ_le_succ (length_le_runLength (fun b hb => hds b (by simp [hb])) r)

theorem exists_of_whole? (h : whole? s = some n) :
    ∃ t r, s = t ++ r ∧ IsWhole t ∧ t.length = n := by
  cases s with
  | nil => simp [whole?] at h
  | cons b s =>
    rw [whole?] at h
    split at h
    · next hb => exact ⟨[0x30], s, by rw [hb]; rfl, .inl rfl, by simpa using h⟩
    · next hb =>
      split at h
      · next hd =>
        obtain ⟨t, r, rfl, ht, hr⟩ := exists_run Bytes.isDigit s
        rw [runLength_append ht hr] at h
        refine ⟨b :: t, r, rfl, .inr ⟨b, t, rfl, hb, ?_⟩, by simpa using h⟩
        simpa [hd] using ht
      · simp at h

theorem whole?_of_append (h : whole? (t ++ (r ++ s)) = some t.length) :
    whole? (t ++ r) = some t.length := by
  cases t with
  | nil =>
    obtain ⟨u, v, -, hu, hlen⟩ := exists_of_whole? h
    rcases hu with rfl | ⟨d, ds, rfl, -, -⟩ <;> simp at hlen
  | cons b t =>
    rw [List.cons_append, whole?] at h ⊢
    split
    · next hb => rwa [if_pos hb] at h
    · next hb =>
      rw [if_neg hb] at h
      split
      · next hd =>
        rw [if_pos hd] at h
        have hrun := runLength_of_append (by simpa using h : runLength Bytes.isDigit _ = t.length)
        rw [hrun, List.length_cons]
      · next hd =>
        rw [if_neg hd] at h
        simp at h

theorem whole?_append_line (s r : Bytes) : whole? (s ++ 0x0A :: r) = whole? s := by
  cases s with
  | nil => rfl
  | cons b s => rw [List.cons_append, whole?, whole?, runLength_append_line rfl]

private theorem fractionLength_cons (b : UInt8) (s : Bytes) :
    fractionLength (b :: s) =
      if b = 0x2E then
        if runLength Bytes.isDigit s = 0 then 0 else runLength Bytes.isDigit s + 1
      else 0 := by
  split
  · next h =>
    rw [h, fractionLength]
    cases runLength Bytes.isDigit s <;> simp
  · next h => simp [fractionLength, h]

theorem fractionLength_append (ht : IsFraction t)
    (hr : Stops (fun b => Bytes.isDigit b || b == 0x2E) r) :
    fractionLength (t ++ r) = t.length := by
  rcases ht with rfl | ⟨ds, ⟨hne, hds⟩, rfl⟩
  · cases r with
    | nil => rfl
    | cons b r =>
      have hb : b ≠ 0x2E := by
        have := Bool.or_eq_false_iff.mp hr
        simpa using this.2
      rw [List.nil_append, fractionLength_cons, if_neg hb, List.length_nil]
  · have hr' : Stops Bytes.isDigit r := hr.mono fun b hb => by rw [hb]; rfl
    rw [List.cons_append, fractionLength_cons, if_pos rfl, runLength_append hds hr',
      if_neg (by simpa using hne), List.length_cons]

theorem length_le_fractionLength (ht : IsFraction t) (r : Bytes) :
    t.length ≤ fractionLength (t ++ r) := by
  rcases ht with rfl | ⟨ds, ⟨hne, hds⟩, rfl⟩
  · exact Nat.zero_le _
  · have hpos := List.length_pos_iff.mpr hne
    have hle := length_le_runLength hds r
    rw [List.cons_append, fractionLength_cons, if_pos rfl, if_neg (by omega), List.length_cons]
    omega

theorem exists_fraction (s : Bytes) :
    ∃ t r, s = t ++ r ∧ IsFraction t ∧ fractionLength s = t.length := by
  cases s with
  | nil => exact ⟨[], [], rfl, .inl rfl, rfl⟩
  | cons b s =>
    obtain ⟨t, r, rfl, ht, hr⟩ := exists_run Bytes.isDigit s
    rw [fractionLength_cons, runLength_append ht hr]
    split
    · next hb =>
      split
      · exact ⟨[], _, rfl, .inl rfl, rfl⟩
      · next hne =>
        have hds : IsDigits t := ⟨fun h => hne (by rw [h]; rfl), ht⟩
        exact ⟨b :: t, r, rfl, .inr ⟨t, hds, by rw [hb]⟩, rfl⟩
    · exact ⟨[], _, rfl, .inl rfl, rfl⟩

theorem fractionLength_append_line (s r : Bytes) :
    fractionLength (s ++ 0x0A :: r) = fractionLength s := by
  cases s with
  | nil => rfl
  | cons b s =>
    rw [List.cons_append, fractionLength_cons, fractionLength_cons, runLength_append_line rfl]

theorem fractionLength_of_append (h : fractionLength (t ++ (r ++ s)) = t.length) :
    fractionLength (t ++ r) = t.length := by
  cases t with
  | nil =>
    cases r with
    | nil => rfl
    | cons b r =>
      have hrun : runLength Bytes.isDigit (r ++ s) = 0 → runLength Bytes.isDigit r = 0 :=
        runLength_of_append (t := [])
      rw [List.nil_append, List.cons_append, fractionLength_cons] at h
      rw [List.nil_append, fractionLength_cons]
      grind
  | cons b t =>
    have hrun : runLength Bytes.isDigit (t ++ (r ++ s)) = t.length →
        runLength Bytes.isDigit (t ++ r) = t.length := runLength_of_append
    rw [List.cons_append, fractionLength_cons] at h ⊢
    grind

private theorem signLength_cons (b : UInt8) (s : Bytes) :
    signLength (b :: s) = if b = 0x2B ∨ b = 0x2D then 1 else 0 := by
  split
  · next h => rcases h with rfl | rfl <;> rfl
  · next h => simp_all [signLength]

theorem signLength_append (ht : IsSign t) (hr : Stops (fun b => b == 0x2B || b == 0x2D) r) :
    signLength (t ++ r) = t.length := by
  rcases ht with rfl | rfl | rfl
  · cases r with
    | nil => rfl
    | cons b r =>
      have hb : ¬ (b = 0x2B ∨ b = 0x2D) := by simpa [Stops] using hr
      rw [List.nil_append, signLength_cons, if_neg hb, List.length_nil]
  · rfl
  · rfl

/-- Digits behind a sign are no part of it. -/
theorem signLength_append_digits {ds : Bytes} (ht : IsSign t) (hds : IsDigits ds) (r : Bytes) :
    signLength (t ++ (ds ++ r)) = t.length := by
  apply signLength_append ht
  obtain ⟨d, ds, rfl⟩ := List.exists_cons_of_ne_nil hds.1
  have hd := hds.2 d (by simp)
  have hplus : d ≠ 0x2B := by
    rintro rfl
    exact absurd hd (by decide)
  have hminus : d ≠ 0x2D := by
    rintro rfl
    exact absurd hd (by decide)
  simp [Stops, hplus, hminus]

theorem exists_sign (s : Bytes) : ∃ t r, s = t ++ r ∧ IsSign t ∧ signLength s = t.length := by
  cases s with
  | nil => exact ⟨[], [], rfl, .inl rfl, rfl⟩
  | cons b s =>
    rw [signLength_cons]
    split
    · next h =>
      rcases h with rfl | rfl
      · exact ⟨[0x2B], s, rfl, .inr (.inl rfl), rfl⟩
      · exact ⟨[0x2D], s, rfl, .inr (.inr rfl), rfl⟩
    · exact ⟨[], b :: s, rfl, .inl rfl, rfl⟩

theorem signLength_append_line (s r : Bytes) :
    signLength (s ++ 0x0A :: r) = signLength s := by
  cases s with
  | nil => rfl
  | cons b s => rw [List.cons_append, signLength_cons, signLength_cons]

private theorem exponentLength_cons (b : UInt8) (s : Bytes) :
    exponentLength (b :: s) =
      if isExponentMark b = true then
        if runLength Bytes.isDigit (s.drop (signLength s)) = 0 then 0
        else 1 + signLength s + runLength Bytes.isDigit (s.drop (signLength s))
      else 0 := by
  have hmark : (decide (b = 0x65) || decide (b = 0x45)) = isExponentMark b := by
    simp [isExponentMark, Bool.beq_eq_decide_eq]
  rw [exponentLength, hmark]
  split
  · cases runLength Bytes.isDigit (s.drop (signLength s)) <;> simp
  · rfl

theorem exponentLength_append (ht : IsExponent t)
    (hr : Stops (fun b => Bytes.isDigit b || isExponentMark b) r) :
    exponentLength (t ++ r) = t.length := by
  rcases ht with rfl | ⟨mark, sign, ds, hmark, hsign, ⟨hne, hds⟩, rfl⟩
  · cases r with
    | nil => rfl
    | cons b r =>
      have hb := (Bool.or_eq_false_iff.mp hr).2
      rw [List.nil_append, exponentLength_cons, hb]
      rfl
  · have hr' : Stops Bytes.isDigit r := hr.mono fun b hb => by rw [hb]; rfl
    have hlen : signLength (sign ++ ds ++ r) = sign.length := by
      rw [List.append_assoc]
      exact signLength_append_digits hsign ⟨hne, hds⟩ r
    rw [List.cons_append, exponentLength_cons, if_pos hmark, hlen, List.append_assoc,
      List.drop_left, runLength_append hds hr', if_neg (by simpa using hne), List.length_cons,
      List.length_append]
    omega

theorem length_le_exponentLength (ht : IsExponent t) (r : Bytes) :
    t.length ≤ exponentLength (t ++ r) := by
  rcases ht with rfl | ⟨mark, sign, ds, hmark, hsign, hds, rfl⟩
  · exact Nat.zero_le _
  · have hpos := List.length_pos_iff.mpr hds.1
    have hle := length_le_runLength hds.2 r
    rw [List.cons_append, List.append_assoc, exponentLength_cons, if_pos hmark,
      signLength_append_digits hsign hds, List.drop_left, if_neg (by omega), List.length_cons,
      List.length_append]
    omega

theorem exists_exponent (s : Bytes) :
    ∃ t r, s = t ++ r ∧ IsExponent t ∧ exponentLength s = t.length := by
  cases s with
  | nil => exact ⟨[], [], rfl, .inl rfl, rfl⟩
  | cons b s =>
    obtain ⟨sign, r, rfl, hsign, hlen⟩ := exists_sign s
    obtain ⟨ds, r, rfl, hds, hr⟩ := exists_run Bytes.isDigit r
    rw [exponentLength_cons, hlen, List.drop_left, runLength_append hds hr]
    split
    · next hb =>
      split
      · exact ⟨[], _, rfl, .inl rfl, rfl⟩
      · next hne =>
        have hds' : IsDigits ds := ⟨fun h => hne (by rw [h]; rfl), hds⟩
        refine ⟨b :: (sign ++ ds), r, by simp, .inr ⟨b, sign, ds, hb, hsign, hds', rfl⟩, ?_⟩
        simp only [List.length_cons, List.length_append]
        omega
    · exact ⟨[], _, rfl, .inl rfl, rfl⟩

private theorem signLength_le (s : Bytes) : signLength s ≤ s.length := by
  obtain ⟨t, u, rfl, -, hlen⟩ := exists_sign s
  rw [hlen, List.length_append]
  omega

theorem exponentLength_append_line (s r : Bytes) :
    exponentLength (s ++ 0x0A :: r) = exponentLength s := by
  cases s with
  | nil => rfl
  | cons b s =>
    rw [List.cons_append, exponentLength_cons, exponentLength_cons, signLength_append_line,
      List.drop_append_of_le_length (signLength_le s), runLength_append_line rfl]

private theorem drop_signLength_append (hs : s ≠ []) (r : Bytes) :
    signLength (s ++ r) = signLength s ∧
      (s ++ r).drop (signLength s) = s.drop (signLength s) ++ r := by
  refine ⟨?_, List.drop_append_of_le_length (signLength_le s)⟩
  obtain ⟨b, s, rfl⟩ := List.exists_cons_of_ne_nil hs
  rw [List.cons_append, signLength_cons, signLength_cons]

theorem exponentLength_of_append (h : exponentLength (t ++ (r ++ s)) = t.length) :
    exponentLength (t ++ r) = t.length := by
  cases t with
  | nil =>
    cases r with
    | nil => rfl
    | cons b r =>
      rw [List.nil_append, List.cons_append, exponentLength_cons] at h
      rw [List.nil_append, exponentLength_cons]
      by_cases hr : r = []
      · simp [hr, signLength, runLength]
      · obtain ⟨hsign, hdrop⟩ := drop_signLength_append hr s
        rw [hsign, hdrop] at h
        have hrun : runLength Bytes.isDigit (r.drop (signLength r) ++ s) = 0 →
            runLength Bytes.isDigit (r.drop (signLength r)) = 0 := runLength_of_append (t := [])
        grind
  | cons b t =>
    rw [List.cons_append, exponentLength_cons] at h ⊢
    by_cases ht : t = []
    · subst ht
      grind
    · obtain ⟨hsign, hdrop⟩ := drop_signLength_append ht (r ++ s)
      obtain ⟨hsign', hdrop'⟩ := drop_signLength_append ht r
      rw [hsign, hdrop] at h
      rw [hsign', hdrop']
      have hrun := runLength_of_append (p := Bytes.isDigit) (t := t.drop (signLength t)) (r := r)
        (s := s)
      have hlen := List.length_drop (i := signLength t) (l := t)
      have hle := signLength_le t
      grind

private theorem drop_two (s t u : Bytes) :
    (s ++ (t ++ u)).drop (s.length + t.length) = u := by
  rw [← List.drop_drop, List.drop_left, List.drop_left]

private theorem drop_three (s t u v : Bytes) :
    (s ++ (t ++ (u ++ v))).drop (s.length + t.length + u.length) = v := by
  rw [← List.drop_drop, drop_two, List.drop_left]

/-- The parts of a number that is found are found one behind the other. -/
private theorem exists_parts (h : number? s = some n) :
    ∃ minus whole fraction exponent r, s = minus ++ (whole ++ (fraction ++ (exponent ++ r))) ∧
      (IsMinus minus ∧ IsWhole whole ∧ IsFraction fraction ∧ IsExponent exponent) ∧
      whole? (whole ++ (fraction ++ (exponent ++ r))) = some whole.length ∧
      fractionLength (fraction ++ (exponent ++ r)) = fraction.length ∧
      exponentLength (exponent ++ r) = exponent.length ∧
      (minus ++ (whole ++ (fraction ++ exponent))).length = n := by
  obtain ⟨w, hw, hn⟩ := Option.map_eq_some_iff.mp h
  obtain ⟨minus, r, rfl, hminus, hm⟩ := exists_minus s
  rw [hm, List.drop_left] at hw
  obtain ⟨whole, r, rfl, hwhole, rfl⟩ := exists_of_whole? hw
  obtain ⟨fraction, r, rfl, hfraction, hf⟩ := exists_fraction r
  obtain ⟨exponent, r, rfl, hexponent, he⟩ := exists_exponent r
  refine ⟨minus, whole, fraction, exponent, r, rfl, ⟨hminus, hwhole, hfraction, hexponent⟩, hw,
    hf, he, ?_⟩
  simp only [hm, drop_two, hf, drop_three, he] at hn
  simp only [List.length_append]
  omega

theorem minusLength_append_whole {minus whole : Bytes} (hminus : IsMinus minus)
    (hwhole : IsWhole whole) (r : Bytes) : minusLength (minus ++ (whole ++ r)) = minus.length := by
  apply minusLength_append hminus
  rcases hwhole with rfl | ⟨d, ds, rfl, -, hds⟩
  · rfl
  · simpa [Stops] using (ne_of_isDigit (hds d (by simp))).1

/-- A number is found when its parts are found one behind the other. -/
private theorem number?_of_parts {minus whole fraction exponent : Bytes} (hminus : IsMinus minus)
    (hwhole : IsWhole whole)
    (hw : whole? (whole ++ (fraction ++ (exponent ++ r))) = some whole.length)
    (hf : fractionLength (fraction ++ (exponent ++ r)) = fraction.length)
    (he : exponentLength (exponent ++ r) = exponent.length) :
    number? (minus ++ (whole ++ (fraction ++ exponent)) ++ r) =
      some (minus ++ (whole ++ (fraction ++ exponent))).length := by
  have hm := minusLength_append_whole hminus hwhole (fraction ++ (exponent ++ r))
  rw [number?]
  simp only [List.append_assoc, hm, List.drop_left, hw, Option.map_some, drop_two, hf, drop_three,
    he, List.length_append, ← Nat.add_assoc]

theorem exists_of_number? (h : number? s = some n) :
    ∃ t r, s = t ++ r ∧ IsNumber t ∧ t.length = n := by
  obtain ⟨minus, whole, fraction, exponent, r, rfl, ⟨hminus, hwhole, hfraction, hexponent⟩, -, -,
    -, hlen⟩ := exists_parts h
  exact ⟨minus ++ (whole ++ (fraction ++ exponent)), r, by simp,
    ⟨minus, whole, fraction, exponent, hminus, hwhole, hfraction, hexponent, rfl⟩, hlen⟩

theorem number?_of_append (h : number? (t ++ (r ++ s)) = some t.length) :
    number? (t ++ r) = some t.length := by
  obtain ⟨minus, whole, fraction, exponent, v, heq, ⟨hminus, hwhole, -, -⟩, hw, hf, he, hlen⟩ :=
    exists_parts h
  obtain ⟨rfl, rfl⟩ : t = minus ++ (whole ++ (fraction ++ exponent)) ∧ r ++ s = v :=
    List.append_inj (by simpa using heq) hlen.symm
  apply number?_of_parts hminus hwhole
  · exact whole?_of_append (s := s) (by simpa using hw)
  · exact fractionLength_of_append (s := s) (by simpa using hf)
  · exact exponentLength_of_append (s := s) he

private theorem stops_exponent_append (he : IsExponent t)
    (hp : ∀ b, isExponentMark b = true → p b = false) (hr : Stops p r) : Stops p (t ++ r) := by
  rcases he with rfl | ⟨mark, sign, ds, hmark, -, -, rfl⟩
  · exact hr
  · exact hp mark hmark

theorem eq_of_isExponentMark {b : UInt8} (h : isExponentMark b = true) :
    b = 0x65 ∨ b = 0x45 := by simpa [isExponentMark] using h

/-- A number is read whole when no point and no letter, digit or underscore follows it. -/
theorem number?_append (ht : IsNumber t)
    (hr : Stops (fun b => isNameContinue b || b == 0x2E) r) : number? (t ++ r) = some t.length := by
  obtain ⟨minus, whole, fraction, exponent, hminus, hwhole, hfraction, hexponent, rfl⟩ := ht
  have hdigit (b : UInt8) (hb : Bytes.isDigit b = true) : isNameContinue b = true := by
    simp [isNameContinue, hb]
  have hmark (b : UInt8) (hb : isExponentMark b = true) : isNameContinue b = true := by
    rcases eq_of_isExponentMark hb with rfl | rfl <;> rfl
  have hf : fractionLength (fraction ++ (exponent ++ r)) = fraction.length := by
    apply fractionLength_append hfraction
    apply stops_exponent_append hexponent
    · intro b hb
      rcases eq_of_isExponentMark hb with rfl | rfl <;> rfl
    · apply hr.mono
      intro b hb
      rcases Bool.or_eq_true_iff.mp hb with hb | hb
      · simp [hdigit b hb]
      · simp [hb]
  have hw : whole? (whole ++ (fraction ++ (exponent ++ r))) = some whole.length := by
    apply whole?_append hwhole
    rcases hfraction with rfl | ⟨ds, -, rfl⟩
    · apply stops_exponent_append hexponent
      · intro b hb
        rcases eq_of_isExponentMark hb with rfl | rfl <;> rfl
      · exact hr.mono fun b hb => by simp [hdigit b hb]
    · rfl
  have he : exponentLength (exponent ++ r) = exponent.length := by
    apply exponentLength_append hexponent
    apply hr.mono
    intro b hb
    rcases Bool.or_eq_true_iff.mp hb with hb | hb
    · simp [hdigit b hb]
    · simp [hmark b hb]
  exact number?_of_parts hminus hwhole hw hf he

private theorem stops_mark_append (ht : IsExponent t) (hne : t ≠ [])
    (hp : ∀ b, isExponentMark b = true → p b = false) (r : Bytes) : Stops p (t ++ r) := by
  rcases ht with rfl | ⟨mark, sign, ds, hmark, -, -, rfl⟩
  · exact absurd rfl hne
  · exact hp mark hmark

/-- The number that is found at the start of a text is as long as any other one there. -/
theorem exists_le_number? (ht : IsNumber t) (r : Bytes) :
    ∃ n, number? (t ++ r) = some n ∧ t.length ≤ n := by
  obtain ⟨minus, whole, fraction, exponent, hminus, hwhole, hfraction, hexponent, rfl⟩ := ht
  have hm := minusLength_append_whole hminus hwhole (fraction ++ (exponent ++ r))
  obtain ⟨w, hw, hle⟩ := exists_le_whole? hwhole (fraction ++ (exponent ++ r))
  simp only [number?, List.append_assoc, hm, List.drop_left, hw, Option.map_some,
    Option.some.injEq, exists_eq_left', List.length_append]
  -- A part is as long as it can be; in front of a further part it has just its own length.
  by_cases hrest : fraction ++ exponent = []
  · obtain ⟨rfl, rfl⟩ := List.append_eq_nil_iff.mp hrest
    simp only [List.length_nil]
    omega
  have hstops : Stops Bytes.isDigit (fraction ++ (exponent ++ r)) := by
    rcases hfraction with rfl | ⟨ds, -, rfl⟩
    · apply stops_mark_append hexponent (by simpa using hrest)
      intro b hb
      rcases eq_of_isExponentMark hb with rfl | rfl <;> rfl
    · rfl
  obtain rfl : w = whole.length := Option.some.inj (hw.symm.trans (whole?_append hwhole hstops))
  rw [drop_two]
  by_cases hexp : exponent = []
  · have hf := length_le_fractionLength hfraction (exponent ++ r)
    simp only [hexp, List.length_nil] at hf ⊢
    omega
  · have hf : fractionLength (fraction ++ (exponent ++ r)) = fraction.length := by
      apply fractionLength_append hfraction
      apply stops_mark_append hexponent hexp
      intro b hb
      rcases eq_of_isExponentMark hb with rfl | rfl <;> rfl
    have he := length_le_exponentLength hexponent r
    rw [hf, drop_three]
    omega

theorem isNumber_iff : IsNumber t ↔ number? t = some t.length := by
  constructor
  · intro h
    have := number?_append h (stops_nil (p := fun b => isNameContinue b || b == 0x2E))
    rwa [List.append_nil] at this
  · intro h
    obtain ⟨u, v, huv, hu, hlen⟩ := exists_of_number? h
    have hv := List.append_inj (huv.symm.trans (List.append_nil t).symm) hlen
    rwa [← hv.1]

instance (t : Bytes) : Decidable (IsNumber t) := decidable_of_iff _ isNumber_iff.symm

theorem number?_append_line (s r : Bytes) : number? (s ++ 0x0A :: r) = number? s := by
  obtain ⟨minus, t, rfl, hminus, hm⟩ := exists_minus s
  rw [number?, number?, minusLength_append_line, hm, List.append_assoc, List.drop_left,
    List.drop_left, whole?_append_line]
  cases hw : whole? t with
  | none => rfl
  | some w =>
    obtain ⟨whole, t, rfl, hwhole, rfl⟩ := exists_of_whole? hw
    obtain ⟨fraction, t, rfl, hfraction, hf⟩ := exists_fraction t
    have hf' := fractionLength_append_line (fraction ++ t) r
    rw [List.append_assoc, hf] at hf'
    simp only [Option.map_some, List.append_assoc, drop_two, hf, hf', drop_three,
      exponentLength_append_line]

end Lexeme

end SchemaDoc.Grammar
