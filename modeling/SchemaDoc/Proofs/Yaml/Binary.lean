import SchemaDoc.Proofs.Yaml.Quotation
import SchemaDoc.Yaml.Write

/-! # Binary texts

What is not a text in UTF-8 is written in base 64, on the line of the tag or as a
block of lines below it. The digits determine the bytes, and the indentation
tells the lines of the block from what follows it.
-/

namespace SchemaDoc.Yaml

open Character (encode)

variable {a b : UInt8} {column column' left : Nat} {fresh : Bool} {r r' s s' t t' : Bytes}

theorem sextet_inj : ∀ m < 64, ∀ n < 64, sextet m = sextet n → m = n := by
  decide +kernel

theorem sextet_ne_pad : ∀ n < 64, sextet n ≠ 0x3D := by
  decide

/-- Digits and padding lie between the plus sign and the letter z. -/
def IsDigit64 (b : UInt8) : Prop := 0x2B ≤ b.toNat ∧ b.toNat ≤ 0x7A

theorem isDigit64_sextet : ∀ n < 64, 0x2B ≤ (sextet n).toNat ∧ (sextet n).toNat ≤ 0x7A := by
  decide

theorem isDigit64_of_mem_base64 (h : b ∈ base64 s) : IsDigit64 b := by
  have hdigit (n : Nat) (hn : n < 64) : IsDigit64 (sextet n) := isDigit64_sextet n hn
  have hpad : IsDigit64 0x3D := ⟨by decide, by decide⟩
  have hbyte (b : UInt8) : b.toNat < 256 := b.toNat_lt
  induction s using base64.induct with
  | case1 => nomatch h
  | case2 a =>
    have ha := hbyte a
    simp only [base64, List.mem_cons, List.not_mem_nil, or_false] at h
    rcases h with rfl | rfl | rfl | rfl
    · exact hdigit _ (by omega)
    · exact hdigit _ (by omega)
    · exact hpad
    · exact hpad
  | case3 a c =>
    have ha := hbyte a
    have hc := hbyte c
    simp only [base64, List.mem_cons, List.not_mem_nil, or_false] at h
    rcases h with rfl | rfl | rfl | rfl
    · exact hdigit _ (by omega)
    · exact hdigit _ (by omega)
    · exact hdigit _ (by omega)
    · exact hpad
  | case4 a c d s ih =>
    have ha := hbyte a
    have hc := hbyte c
    have hd := hbyte d
    simp only [base64, List.mem_cons] at h
    rcases h with rfl | rfl | rfl | rfl | h
    · exact hdigit _ (by omega)
    · exact hdigit _ (by omega)
    · exact hdigit _ (by omega)
    · exact hdigit _ (by omega)
    · exact ih h

/-- Four digits determine three bytes, and the padding tells how many there are. -/
theorem base64_inj (h : base64 s = base64 t) : s = t := by
  have hbyte (b : UInt8) : b.toNat < 256 := b.toNat_lt
  have hdigit {m n : Nat} (hm : m < 64) (hn : n < 64) (h : sextet m = sextet n) : m = n :=
    sextet_inj m hm n hn h
  induction s using base64.induct generalizing t with
  | case1 => rcases t with _ | ⟨a', _ | ⟨b', _ | ⟨c', t⟩⟩⟩ <;> first | rfl | nomatch h
  | case2 a =>
    have ha := hbyte a
    rcases t with _ | ⟨a', _ | ⟨b', _ | ⟨c', t⟩⟩⟩
    · nomatch h
    · have ha' := hbyte a'
      simp only [base64, List.cons.injEq, and_true] at h
      have h₁ := hdigit (by omega) (by omega) h.1
      have h₂ := hdigit (by omega) (by omega) h.2
      rw [UInt8.toNat_inj.mp (by omega : a.toNat = a'.toNat)]
    · have hb' := hbyte b'
      simp only [base64, List.cons.injEq] at h
      exact absurd h.2.2.1.symm (sextet_ne_pad _ (by omega))
    · have hc' := hbyte c'
      simp only [base64, List.cons.injEq] at h
      exact absurd h.2.2.1.symm (sextet_ne_pad _ (by omega))
  | case3 a b =>
    have ha := hbyte a
    have hb := hbyte b
    rcases t with _ | ⟨a', _ | ⟨b', _ | ⟨c', t⟩⟩⟩
    · nomatch h
    · simp only [base64, List.cons.injEq] at h
      exact absurd h.2.2.1 (sextet_ne_pad _ (by omega))
    · have ha' := hbyte a'
      have hb' := hbyte b'
      simp only [base64, List.cons.injEq, and_true] at h
      have h₁ := hdigit (by omega) (by omega) h.1
      have h₂ := hdigit (by omega) (by omega) h.2.1
      have h₃ := hdigit (by omega) (by omega) h.2.2
      rw [UInt8.toNat_inj.mp (by omega : a.toNat = a'.toNat),
        UInt8.toNat_inj.mp (by omega : b.toNat = b'.toNat)]
    · have hc' := hbyte c'
      simp only [base64, List.cons.injEq] at h
      exact absurd h.2.2.2.1.symm (sextet_ne_pad _ (by omega))
  | case4 a b c s ih =>
    have ha := hbyte a
    have hb := hbyte b
    have hc := hbyte c
    rcases t with _ | ⟨a', _ | ⟨b', _ | ⟨c', t⟩⟩⟩
    · nomatch h
    · simp only [base64, List.cons.injEq] at h
      exact absurd h.2.2.1 (sextet_ne_pad _ (by omega))
    · simp only [base64, List.cons.injEq] at h
      exact absurd h.2.2.2.1 (sextet_ne_pad _ (by omega))
    · have ha' := hbyte a'
      have hb' := hbyte b'
      have hc' := hbyte c'
      simp only [base64, List.cons.injEq] at h
      have h₁ := hdigit (by omega) (by omega) h.1
      have h₂ := hdigit (by omega) (by omega) h.2.1
      have h₃ := hdigit (by omega) (by omega) h.2.2.1
      have h₄ := hdigit (by omega) (by omega) h.2.2.2.1
      rw [UInt8.toNat_inj.mp (by omega : a.toNat = a'.toNat),
        UInt8.toNat_inj.mp (by omega : b.toNat = b'.toNat),
        UInt8.toNat_inj.mp (by omega : c.toNat = c'.toNat), ih h.2.2.2.2]

theorem spaces_add (m n : Nat) : Bytes.spaces (m + n) = Bytes.spaces m ++ Bytes.spaces n :=
  List.replicate_append_replicate.symm

/-- The text does not go on at a column. -/
def Outdented (column : Nat) (s : Bytes) : Prop := s = [] ∨ ¬ Bytes.spaces column <+: s

theorem Outdented.not_append (h : Outdented column r) (hne : s ≠ []) :
    Bytes.spaces column ++ s ≠ r := by
  rintro rfl
  rcases h with h | h
  · exact hne (List.append_eq_nil_iff.mp h).2
  · exact h (List.prefix_append _ _)

theorem Outdented.mono (h : Outdented column s) (hle : column ≤ column') :
    Outdented column' s := by
  refine h.imp_right fun hnot hprefix => hnot (List.IsPrefix.trans ?_ hprefix)
  rw [← Nat.add_sub_cancel' hle, spaces_add]
  exact List.prefix_append _ _

/-- What stands at a column does not go on at any column behind it. -/
theorem outdented_spaces_append (hlt : column < column') (hb : b ≠ 0x20)
    (s : Bytes) : Outdented column' (Bytes.spaces column ++ b :: s) := by
  right
  rintro ⟨t, ht⟩
  obtain ⟨k, rfl⟩ := Nat.exists_eq_add_of_lt hlt
  rw [Nat.add_assoc, spaces_add, List.append_assoc, List.append_right_inj, Bytes.spaces,
    List.replicate_succ, List.cons_append, List.cons.injEq] at ht
  exact hb ht.1.symm

/-- Lines with an indentation in front of each; a fresh line has not begun. -/
def rows (column : Nat) : (fresh : Bool) → Bytes → Bytes
  | _, [] => []
  | fresh, b :: s =>
    if b = 0x0A then 0x0A :: rows column true s
    else (if fresh then Bytes.spaces column else []) ++ b :: rows column false s

/-- Lines that are ended and not empty. -/
def Lined : (fresh : Bool) → Bytes → Prop
  | fresh, [] => fresh = true
  | fresh, b :: s => if b = 0x0A then fresh = false ∧ Lined true s else Lined false s

/-- The lines of a block are told from what follows it. -/
theorem rows_append_inj (hs : Lined fresh s) (hs' : Lined fresh s') (hr : Outdented column r)
    (hr' : Outdented column r') (h : rows column fresh s ++ r = rows column fresh s' ++ r') :
    s = s' ∧ r = r' := by
  induction s generalizing fresh s' with
  | nil =>
    cases hs
    cases s' with
    | nil => exact ⟨rfl, h⟩
    | cons b' s' =>
      rw [Lined] at hs'
      split at hs'
      · nomatch hs'.1
      · next hb' =>
        rw [rows, rows, if_neg hb', if_pos rfl, List.append_assoc] at h
        exact absurd h.symm (hr.not_append (List.cons_ne_nil _ _))
  | cons b s ih =>
    cases s' with
    | nil =>
      cases hs'
      rw [Lined] at hs
      split at hs
      · nomatch hs.1
      · next hb =>
        rw [rows, rows, if_neg hb, if_pos rfl, List.append_assoc] at h
        exact absurd h (hr'.not_append (List.cons_ne_nil _ _))
    | cons b' s' =>
      rw [Lined] at hs hs'
      rw [rows, rows] at h
      by_cases hb : b = 0x0A <;> by_cases hb' : b' = 0x0A
      · rw [if_pos hb] at hs h
        rw [if_pos hb'] at hs' h
        obtain ⟨rfl, hr⟩ := ih hs.2 hs'.2 (List.cons.inj h).2
        exact ⟨by rw [hb, hb'], hr⟩
      · rw [if_pos hb] at hs h
        rw [if_neg hb', hs.1] at h
        exact absurd (List.cons.inj h).1.symm hb'
      · rw [if_pos hb'] at hs' h
        rw [if_neg hb, hs'.1] at h
        exact absurd (List.cons.inj h).1 hb
      · rw [if_neg hb] at hs h
        rw [if_neg hb', List.append_assoc, List.append_assoc, List.append_right_inj] at h
        rw [if_neg hb'] at hs'
        obtain ⟨rfl, hrest⟩ := List.cons.inj h
        obtain ⟨rfl, hr⟩ := ih hs hs' hrest
        exact ⟨rfl, hr⟩

variable {digits digits' : Bytes}

theorem lined_cutLines (h : 0x0A ∉ digits) : Lined false (cutLines left digits) := by
  induction digits generalizing left with
  | nil => exact ⟨rfl, rfl⟩
  | cons b digits ih =>
    rw [List.mem_cons, not_or] at h
    cases left with
    | zero =>
      rw [cutLines, Lined, if_pos rfl, Lined, if_neg (Ne.symm h.1)]
      exact ⟨rfl, ih h.2⟩
    | succ left =>
      rw [cutLines, Lined, if_neg (Ne.symm h.1)]
      exact ih h.2

theorem lined_block (h : 0x0A ∉ digits) (hne : digits ≠ []) :
    Lined true (cutLines 70 digits) := by
  obtain ⟨b, digits, rfl⟩ := List.exists_cons_of_ne_nil hne
  rw [List.mem_cons, not_or] at h
  rw [cutLines, Lined, if_neg (Ne.symm h.1)]
  exact lined_cutLines h.2

theorem filter_cutLines (h : 0x0A ∉ digits) (left : Nat) :
    (cutLines left digits).filter (· != 0x0A) = digits := by
  induction digits generalizing left with
  | nil => rfl
  | cons b digits ih =>
    rw [List.mem_cons, not_or] at h
    have hb : b ≠ 0x0A := Ne.symm h.1
    cases left with
    | zero => simp [cutLines, hb, ih h.2]
    | succ left => simp [cutLines, hb, ih h.2]

theorem cutLines_inj (h : 0x0A ∉ digits) (h' : 0x0A ∉ digits')
    (heq : cutLines left digits = cutLines left digits') : digits = digits' := by
  rw [← filter_cutLines h left, heq, filter_cutLines h']

theorem exists_cutLines_eq (hne : digits ≠ []) (left : Nat) :
    ∃ u b, b ∈ digits ∧ cutLines left digits = u ++ [b, 0x0A] := by
  induction digits generalizing left with
  | nil => exact absurd rfl hne
  | cons b digits ih =>
    by_cases hnil : digits = []
    · subst hnil
      cases left with
      | zero => exact ⟨[0x0A], b, List.mem_cons_self, rfl⟩
      | succ left => exact ⟨[], b, List.mem_cons_self, rfl⟩
    · cases left with
      | zero =>
        obtain ⟨u, c, hc, heq⟩ := ih hnil 69
        exact ⟨0x0A :: b :: u, c, List.mem_cons_of_mem _ hc, by rw [cutLines, heq]; rfl⟩
      | succ left =>
        obtain ⟨u, c, hc, heq⟩ := ih hnil left
        exact ⟨b :: u, c, List.mem_cons_of_mem _ hc, by rw [cutLines, heq]; rfl⟩

theorem mem_of_mem_cutLines (h : b ∈ cutLines left digits) : b = 0x0A ∨ b ∈ digits := by
  induction digits generalizing left with
  | nil => exact .inl (List.mem_singleton.mp h)
  | cons c digits ih =>
    cases left with
    | zero =>
      rw [cutLines, List.mem_cons, List.mem_cons] at h
      rcases h with rfl | rfl | h
      · exact .inl rfl
      · exact .inr List.mem_cons_self
      · exact (ih h).imp_right (List.mem_cons_of_mem _)
    | succ left =>
      rw [cutLines, List.mem_cons] at h
      rcases h with rfl | h
      · exact .inr List.mem_cons_self
      · exact (ih h).imp_right (List.mem_cons_of_mem _)

/-- Digits and line feeds. -/
def IsPage (s : Bytes) : Prop := ∀ b ∈ s, b = 0x0A ∨ IsDigit64 b

theorem charactersWithBytes_cons_ascii (hb : b.toNat < 0x80) (s : Bytes) :
    charactersWithBytes (b :: s) = (⟨b.toNat, 1⟩, [b]) :: charactersWithBytes s := by
  have hscalar : Character.IsScalar b.toNat := .inl (by omega)
  have h := charactersWithBytes_encode_append hscalar s
  rwa [Bytes.encode_of_lt hb] at h

theorem list_cons_ascii (hb : b.toNat < 0x80) (s : Bytes) :
    Character.list (b :: s) = ⟨b.toNat, 1⟩ :: Character.list s := by
  have hscalar : Character.IsScalar b.toNat := .inl (by omega)
  have h := Bytes.list_encode_append hscalar s
  rwa [Bytes.encode_of_lt hb] at h

theorem IsPage.isBreak (h : b = 0x0A ∨ IsDigit64 b) : isBreak b.toNat = decide (b = 0x0A) := by
  rcases h with rfl | ⟨h, h'⟩
  · rfl
  · have hne : b ≠ 0x0A := by
      rintro rfl
      nomatch h
    rw [decide_eq_false hne, Yaml.isBreak]
    simp only [Bool.or_eq_false_iff, beq_eq_false_iff_ne]
    omega

theorem IsPage.lt (h : b = 0x0A ∨ IsDigit64 b) : b.toNat < 0x80 := by
  rcases h with rfl | h
  · decide
  · have := h.2
    omega

theorem IsPage.indented_eq (hs : IsPage s) (column : Nat) (fresh : Bool) :
    indented column (fun _ own => own) fresh (charactersWithBytes s) = rows column fresh s := by
  induction s generalizing fresh with
  | nil => rfl
  | cons b s ih =>
    obtain ⟨hb, hs⟩ := List.forall_mem_cons.mp hs
    rw [charactersWithBytes_cons_ascii (IsPage.lt hb), indented, IsPage.isBreak hb, rows, ih hs,
      ih hs]
    by_cases hline : b = 0x0A
    · rw [if_pos (decide_eq_true hline), if_pos hline, hline]
      rfl
    · rw [if_neg (by simpa using hline), if_neg hline, List.append_assoc]
      rfl

theorem IsPage.codes_eq (hs : IsPage s) :
    (Character.list s).map Character.code = s.map UInt8.toNat := by
  induction s with
  | nil => rfl
  | cons b s ih =>
    obtain ⟨hb, hs⟩ := List.forall_mem_cons.mp hs
    rw [list_cons_ascii (IsPage.lt hb), List.map_cons, List.map_cons, ih hs]

theorem isPage_cutLines (h : ∀ b ∈ digits, IsDigit64 b) (left : Nat) :
    IsPage (cutLines left digits) := by
  intro b hb
  exact (mem_of_mem_cutLines hb).imp_right (h b)

/-- A block of ended lines has a bare header. -/
theorem literalBlock_cutLines (h : ∀ b ∈ digits, IsDigit64 b) (hne : digits ≠ []) (column : Nat) :
    literalBlock column (cutLines 70 digits)
        ((Character.list (cutLines 70 digits)).map Character.code) =
      ⟨0x7C :: 0x0A :: rows column true (cutLines 70 digits), true⟩ := by
  have hpage := isPage_cutLines h 70
  have hdigit : ∀ b ∈ digits, b ≠ 0x0A ∧ isBreak b.toNat = false ∧ isSpaceCode b.toNat = false := by
    intro b hb
    have hdigit64 := h b hb
    have hne : b ≠ 0x0A := by
      rintro rfl
      nomatch hdigit64.1
    refine ⟨hne, ?_, ?_⟩
    · rw [IsPage.isBreak (.inr hdigit64), decide_eq_false hne]
    · have := hdigit64.1
      rw [isSpaceCode, beq_eq_false_iff_ne]
      omega
  obtain ⟨u, b, hb, hlast⟩ := exists_cutLines_eq hne 70
  obtain ⟨first, rest, rfl⟩ := List.exists_cons_of_ne_nil hne
  obtain ⟨-, hbreak, hspace⟩ := hdigit first List.mem_cons_self
  have hhead : ((cutLines 70 (first :: rest)).map UInt8.toNat).head? = some first.toNat := rfl
  have hend : ((cutLines 70 (first :: rest)).map UInt8.toNat).getLast? = some 0x0A := by
    rw [hlast]
    simp
  have hchomping : chomping ((cutLines 70 (first :: rest)).map UInt8.toNat) = [] := by
    have hreverse : ((cutLines 70 (first :: rest)).map UInt8.toNat).reverse =
        0x0A :: b.toNat :: (u.map UInt8.toNat).reverse := by
      rw [hlast]
      simp
    have hline : isBreak 0x0A = true := rfl
    rw [chomping, hreverse]
    simp [(hdigit b hb).2.1, hline]
  rw [literalBlock, hpage.codes_eq, hpage.indented_eq, hhead, hend, hchomping]
  simp only [Option.map_some, Option.getD_some, hbreak, hspace, Bool.or_self, Bool.false_eq_true,
    if_false, List.append_nil]
  rfl

/-- A binary text with the ends of its lines. -/
theorem line_binary (column : Nat) (s : Bytes) :
    line (binary column s) =
      if (base64 s).length < 70 then bytes "!!binary " ++ base64 s ++ [0x0A]
      else bytes "!!binary |" ++ 0x0A :: rows column true (cutLines 70 (base64 s)) := by
  simp only [binary]
  split
  · rfl
  · next hlength =>
    have hne : base64 s ≠ [] := by
      intro hnil
      rw [hnil] at hlength
      exact hlength (by decide)
    rw [literalBlock_cutLines (fun _ => isDigit64_of_mem_base64) hne]
    rfl

theorem line_notMem_base64 : 0x0A ∉ base64 s := by
  intro h
  nomatch (isDigit64_of_mem_base64 h).1

/-- Digits do not look like the header of a block. -/
theorem base64_append_ne (s t t' : Bytes) : base64 s ++ 0x0A :: t ≠ 0x7C :: t' := by
  intro h
  cases hdigits : base64 s with
  | nil =>
    rw [hdigits] at h
    nomatch (List.cons.inj h).1
  | cons b digits =>
    have hb : IsDigit64 b := isDigit64_of_mem_base64 (s := s) (by simp [hdigits])
    rw [hdigits, List.cons_append, List.cons.injEq] at h
    rw [h.1] at hb
    nomatch hb.2

/-- The first separator tells a text without separators from what follows it. -/
theorem append_cons_inj {sep : UInt8} (hs : sep ∉ s) (hs' : sep ∉ s')
    (h : s ++ sep :: t = s' ++ sep :: t') : s = s' ∧ t = t' := by
  induction s generalizing s' with
  | nil =>
    cases s' with
    | nil => exact ⟨rfl, (List.cons.inj h).2⟩
    | cons b s' => exact absurd ((List.cons.inj h).1 ▸ List.mem_cons_self) hs'
  | cons a s ih =>
    rw [List.mem_cons, not_or] at hs
    cases s' with
    | nil => exact absurd (List.cons.inj h).1.symm hs.1
    | cons b s' =>
      rw [List.mem_cons, not_or] at hs'
      obtain ⟨rfl, hrest⟩ := List.cons.inj h
      obtain ⟨rfl, ht⟩ := ih hs.2 hs'.2 hrest
      exact ⟨rfl, ht⟩

/-- Without their indentation the lines are as they were. -/
theorem filter_rows (h : 0x20 ∉ s) (column : Nat) (fresh : Bool) :
    (rows column fresh s).filter (· != 0x20) = s := by
  have hspaces : (Bytes.spaces column).filter (· != 0x20) = [] := by
    rw [List.filter_eq_nil_iff]
    intro b hb
    simp [List.eq_of_mem_replicate hb]
  induction s generalizing fresh with
  | nil => rfl
  | cons b s ih =>
    rw [List.mem_cons, not_or] at h
    have hb : b ≠ 0x20 := Ne.symm h.1
    rw [rows]
    split
    · next hline =>
      rw [hline, List.filter_cons_of_pos (by decide), ih h.2]
    · cases fresh <;> simp [hspaces, hb, ih h.2]

/-- The ends of two texts can be told: nothing goes on behind them at the one column where both
stand, or nothing at all follows them. -/
def Delimited (column column' : Nat) (r r' : Bytes) : Prop :=
  column = column' ∧ Outdented column r ∧ Outdented column r' ∨ r = [] ∧ r' = []

/-- The lines of a page are told from what follows them. -/
theorem page_append_inj (hs : Lined true s) (hs' : Lined true s') (hspace : 0x20 ∉ s)
    (hspace' : 0x20 ∉ s') (hr : Delimited column column' r r')
    (h : rows column true s ++ r = rows column' true s' ++ r') : s = s' ∧ r = r' := by
  rcases hr with ⟨rfl, hr, hr'⟩ | ⟨rfl, rfl⟩
  · exact rows_append_inj hs hs' hr hr' h
  · rw [List.append_nil, List.append_nil] at h
    rw [← filter_rows hspace column true, h, filter_rows hspace']
    exact ⟨rfl, rfl⟩

theorem space_notMem_cutLines (left : Nat) : 0x20 ∉ cutLines left (base64 s) := by
  intro h
  rcases isPage_cutLines (fun _ => isDigit64_of_mem_base64) left 0x20 h with h | h
  · nomatch h
  · nomatch h.1

theorem line_binary_append_inj (hr : Delimited column column' r r')
    (h : line (binary column s) ++ r = line (binary column' s') ++ r') : s = s' ∧ r = r' := by
  have hlong (lines : Bytes) : bytes "!!binary |" ++ lines =
      bytes "!!binary " ++ 0x7C :: lines := rfl
  rw [line_binary, line_binary] at h
  split at h <;> split at h <;>
    simp only [hlong, List.append_assoc, List.append_right_inj, List.cons_append,
      List.cons.injEq, List.nil_append, true_and] at h
  · obtain ⟨hdigits, hrest⟩ := append_cons_inj line_notMem_base64 line_notMem_base64 h
    exact ⟨base64_inj hdigits, hrest⟩
  · exact absurd h (base64_append_ne _ _ _)
  · exact absurd h.symm (base64_append_ne _ _ _)
  · next hlength hlength' =>
    have hne {s : Bytes} (hlength : ¬(base64 s).length < 70) : base64 s ≠ [] := by
      intro hnil
      rw [hnil] at hlength
      exact hlength (by decide)
    obtain ⟨hlines, hrest⟩ := page_append_inj (lined_block line_notMem_base64 (hne hlength))
      (lined_block line_notMem_base64 (hne hlength')) (space_notMem_cutLines 70)
      (space_notMem_cutLines 70) hr h
    exact ⟨base64_inj (cutLines_inj line_notMem_base64 line_notMem_base64 hlines), hrest⟩

end SchemaDoc.Yaml
