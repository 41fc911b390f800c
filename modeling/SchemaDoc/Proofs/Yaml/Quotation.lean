import Mathlib.Algebra.Ring.Nat
import SchemaDoc.Proofs.Grammar.Word
import SchemaDoc.Proofs.Text.Utf8
import SchemaDoc.Yaml.Scalar

/-! # Texts between quotes

What stands between quotes for a character is told from whatever follows it, so a
quoted text is quoted from one text only. Quoting a text of a single line gives a
text of a single line.
-/

namespace SchemaDoc

open Character (encode IsScalar)
open Bytes (IsUtf8)
open Grammar

variable {code code' column column' : Nat} {s s' t t' : Bytes}

namespace Bytes

theorem hexDigit_inj : ∀ m < 16, ∀ n < 16, hexDigit 0x41 m = hexDigit 0x41 n → m = n := by
  decide

theorem lt_hexDigit : ∀ n < 16, 0x20 < hexDigit 0x41 n := by
  decide

theorem length_hexUpper (width n : Nat) : (hexUpper width n).length = width := by
  rw [hexUpper]
  induction width generalizing n with
  | zero => rfl
  | succ width ih => rw [hexadecimal, List.length_append, ih, List.length_singleton]

theorem lt_of_mem_hexUpper {b : UInt8} {width n : Nat} (h : b ∈ hexUpper width n) : 0x20 < b := by
  rw [hexUpper] at h
  induction width generalizing n with
  | zero => nomatch h
  | succ width ih =>
    rw [hexadecimal, List.mem_append, List.mem_singleton] at h
    rcases h with h | rfl
    · exact ih h
    · exact lt_hexDigit _ (Nat.mod_lt _ (by decide))

theorem hexUpper_inj {width m n : Nat} (hm : m < 16 ^ width) (hn : n < 16 ^ width)
    (h : hexUpper width m = hexUpper width n) : m = n := by
  rw [hexUpper, hexUpper] at h
  induction width generalizing m n with
  | zero => omega
  | succ width ih =>
    rw [hexadecimal, hexadecimal] at h
    obtain ⟨hinit, hlast⟩ := List.append_inj' h rfl
    have hdigit := hexDigit_inj _ (Nat.mod_lt m (by decide)) _ (Nat.mod_lt n (by decide))
      (List.singleton_inj.mp hlast)
    have hrest := ih (by omega) (by omega) hinit
    omega

/-- A sequence is told from what follows it. -/
theorem encode_append_inj (hcode : IsScalar code) (hcode' : IsScalar code')
    (h : encode code ++ t = encode code' ++ t') : code = code' ∧ t = t' := by
  have hfirst := congrArg Character.first h
  rw [first_encode_append hcode, first_encode_append hcode', Character.mk.injEq] at hfirst
  obtain ⟨rfl, -⟩ := hfirst
  exact ⟨rfl, List.append_cancel_left h⟩

end Bytes

namespace Yaml

/-- The characters with a letter of their own behind the backslash. -/
def shortEscapes : List (Nat × UInt8) :=
  [(0x00, 0x30), (0x07, 0x61), (0x08, 0x62), (0x09, 0x74), (0x0A, 0x6E), (0x0B, 0x76),
    (0x0C, 0x66), (0x0D, 0x72), (0x1B, 0x65), (0x22, 0x22), (0x5C, 0x5C), (0x85, 0x4E),
    (0xA0, 0x5F), (0x2028, 0x4C), (0x2029, 0x50)]

/-- The number of hexadecimal digits behind a mark. -/
def markWidth? : UInt8 → Option Nat
  | 0x78 => some 2
  | 0x75 => some 4
  | 0x55 => some 8
  | _ => none

theorem mem_shortEscapes {letter : UInt8} (h : shortEscape? code = some letter) :
    (code, letter) ∈ shortEscapes := by
  unfold shortEscape? at h
  split at h <;> simp_all [shortEscapes]

theorem shortEscapes_inj :
    ∀ p ∈ shortEscapes, ∀ q ∈ shortEscapes, p.2 = q.2 → p.1 = q.1 := by
  decide

theorem markWidth?_shortEscapes : ∀ p ∈ shortEscapes, markWidth? p.2 = none ∧ 0x20 < p.2 := by
  decide

/-- An escape is a mark and what the mark asks for. -/
theorem exists_escape (h : IsScalar code) :
    ∃ mark digits, escapeCharacter code = 0x5C :: mark :: digits ∧
      (shortEscape? code = some mark ∧ digits = [] ∨
        ∃ width, markWidth? mark = some width ∧ digits = Bytes.hexUpper width code ∧
          code < 16 ^ width) := by
  rw [escapeCharacter]
  cases hshort : shortEscape? code with
  | some letter => exact ⟨letter, [], rfl, .inl ⟨rfl, rfl⟩⟩
  | none =>
    dsimp only
    split
    · exact ⟨0x78, _, rfl, .inr ⟨2, rfl, rfl, by omega⟩⟩
    split
    · exact ⟨0x75, _, rfl, .inr ⟨4, rfl, rfl, by omega⟩⟩
    · exact ⟨0x55, _, rfl, .inr ⟨8, rfl, rfl, by rcases h with h | h <;> omega⟩⟩

theorem escapeCharacter_inj (hcode : IsScalar code) (hcode' : IsScalar code')
    (h : escapeCharacter code ++ t = escapeCharacter code' ++ t') : code = code' ∧ t = t' := by
  obtain ⟨mark, digits, heq, hform⟩ := exists_escape hcode
  obtain ⟨mark', digits', heq', hform'⟩ := exists_escape hcode'
  rw [heq, heq'] at h
  simp only [List.cons_append, List.cons.injEq, true_and] at h
  obtain ⟨rfl, h⟩ := h
  rcases hform with ⟨hshort, rfl⟩ | ⟨width, hwidth, rfl, hlt⟩ <;>
    rcases hform' with ⟨hshort', rfl⟩ | ⟨width', hwidth', rfl, hlt'⟩
  · exact ⟨shortEscapes_inj _ (mem_shortEscapes hshort) _ (mem_shortEscapes hshort') rfl, h⟩
  · rw [(markWidth?_shortEscapes _ (mem_shortEscapes hshort)).1] at hwidth'
    nomatch hwidth'
  · rw [(markWidth?_shortEscapes _ (mem_shortEscapes hshort')).1] at hwidth
    nomatch hwidth
  · obtain rfl := Option.some.inj (hwidth.symm.trans hwidth')
    obtain ⟨hdigits, ht⟩ := List.append_inj h (by rw [Bytes.length_hexUpper, Bytes.length_hexUpper])
    exact ⟨Bytes.hexUpper_inj hlt hlt' hdigits, ht⟩

theorem lt_of_mem_escapeCharacter {b : UInt8} (hcode : IsScalar code)
    (h : b ∈ escapeCharacter code) : 0x20 < b := by
  obtain ⟨mark, digits, heq, hform⟩ := exists_escape hcode
  rw [heq] at h
  rcases hform with ⟨hshort, rfl⟩ | ⟨width, hwidth, rfl, -⟩
  · simp only [List.mem_cons, List.not_mem_nil, or_false] at h
    rcases h with rfl | rfl
    · decide
    · exact (markWidth?_shortEscapes _ (mem_shortEscapes hshort)).2
  · rcases List.mem_cons.mp h with rfl | h
    · decide
    rcases List.mem_cons.mp h with rfl | h
    · revert hwidth
      unfold markWidth?
      split <;> simp
    · exact Bytes.lt_of_mem_hexUpper h

/-- What stands for a character between double quotes. -/
def quotedUnit (marked : Bool) (code : Nat) : Bytes :=
  if marked || !isRaw code || isBreak code || code == 0x22 || code == 0x5C then
    escapeCharacter code
  else encode code

/-- What stands for a text between double quotes. -/
def quotedBody (marked : Bool) (s : Bytes) : Bytes :=
  s.mapCharacters fun r own =>
    if marked || !isRaw r.code || isBreak r.code || r.code == 0x22 || r.code == 0x5C then
      escapeCharacter r.code
    else own

theorem doubleQuoted_eq (s : Bytes) :
    doubleQuoted s =
      0x22 :: (quotedBody (Bytes.startsWith (encode 0xFEFF) s) s ++ [0x22]) := rfl

@[simp] theorem quotedBody_encode_append (marked : Bool) (hcode : IsScalar code) (s : Bytes) :
    quotedBody marked (encode code ++ s) = quotedUnit marked code ++ quotedBody marked s :=
  Bytes.mapCharacters_encode_append _ hcode s

variable {marked marked' : Bool}

theorem quotedUnit_ne_nil (hcode : IsScalar code) : quotedUnit marked code ≠ [] := by
  rw [quotedUnit]
  split
  · obtain ⟨mark, digits, heq, -⟩ := exists_escape hcode
    rw [heq]
    exact List.cons_ne_nil _ _
  · exact Character.encode_ne_nil hcode

/-- A character that stands for itself does not look like an escape. -/
theorem encode_ne_escape (hcode : IsScalar code) (hcode' : IsScalar code') (hne : code ≠ 0x5C) :
    encode code ++ t ≠ escapeCharacter code' ++ t' := by
  intro h
  obtain ⟨mark, digits, heq, -⟩ := exists_escape hcode'
  obtain ⟨b, r, hencode⟩ := List.exists_cons_of_ne_nil (Character.encode_ne_nil hcode)
  rw [heq, hencode, List.cons_append, List.cons_append, List.cons.injEq] at h
  have hmem : 0x5C ∈ encode code := by simp [hencode, h.1]
  exact hne (Character.eq_of_mem_encode hcode hmem (by decide)).1

theorem quotedUnit_inj (hcode : IsScalar code) (hcode' : IsScalar code')
    (h : quotedUnit marked code ++ t = quotedUnit marked' code' ++ t') : code = code' ∧ t = t' := by
  rw [quotedUnit, quotedUnit] at h
  split at h <;> split at h
  · exact escapeCharacter_inj hcode hcode' h
  · next hkept =>
    simp only [Bool.or_eq_true, beq_iff_eq, not_or] at hkept
    exact absurd h.symm (encode_ne_escape hcode' hcode hkept.2)
  · next hkept _ =>
    simp only [Bool.or_eq_true, beq_iff_eq, not_or] at hkept
    exact absurd h (encode_ne_escape hcode hcode' hkept.2)
  · exact Bytes.encode_append_inj hcode hcode' h

theorem quotedBody_inj (hs : IsUtf8 s) (hs' : IsUtf8 s')
    (h : quotedBody marked s = quotedBody marked' s') : s = s' := by
  have hnil (m : Bool) : quotedBody m [] = [] := rfl
  induction hs generalizing s' with
  | nil =>
    cases hs' with
    | nil => rfl
    | cons hcode' _ =>
      rw [quotedBody_encode_append _ hcode', hnil, eq_comm, List.append_eq_nil_iff] at h
      exact absurd h.1 (quotedUnit_ne_nil hcode')
  | cons hcode _ ih =>
    rw [quotedBody_encode_append _ hcode] at h
    cases hs' with
    | nil =>
      rw [hnil, List.append_eq_nil_iff] at h
      exact absurd h.1 (quotedUnit_ne_nil hcode)
    | cons hcode' hs' =>
      rw [quotedBody_encode_append _ hcode'] at h
      obtain ⟨rfl, hrest⟩ := quotedUnit_inj hcode hcode' h
      rw [ih hs' hrest]

/-- Between double quotes each text has its own text, whether all of it is escaped or not. -/
theorem doubleQuoted_inj (hs : IsUtf8 s) (hs' : IsUtf8 s')
    (h : doubleQuoted s = doubleQuoted s') : s = s' := by
  rw [doubleQuoted_eq, doubleQuoted_eq, List.cons.injEq, List.append_left_inj] at h
  exact quotedBody_inj hs hs' h.2

/-- What stands for a character between single quotes. -/
def doubledQuote (code : Nat) (own : Bytes) : Bytes := if code = 0x27 then bytes "''" else own

/-- What stands for a text between single quotes, or for its rest behind a break. -/
def singleBody (column : Nat) (fresh : Bool) (s : Bytes) : Bytes :=
  indented column doubledQuote fresh (charactersWithBytes s)

theorem singleQuoted_eq (column : Nat) (s : Bytes) :
    singleQuoted column s = 0x27 :: (singleBody column false s ++ [0x27]) := rfl

theorem charactersWithBytes_encode_append (hcode : IsScalar code) (s : Bytes) :
    charactersWithBytes (encode code ++ s) =
      (⟨code, (encode code).length⟩, encode code) :: charactersWithBytes s := by
  rw [charactersWithBytes, Bytes.list_encode_append hcode, charactersWithBytes.attach,
    List.take_left, List.drop_left, ← charactersWithBytes]

theorem singleBody_of_isBreak (hcode : IsScalar code) (hbreak : isBreak code = true)
    (fresh : Bool) (s : Bytes) :
    singleBody column fresh (encode code ++ s) = encode code ++ singleBody column true s := by
  rw [singleBody, charactersWithBytes_encode_append hcode, indented, if_pos hbreak, ← singleBody]

theorem singleBody_of_not_isBreak (hcode : IsScalar code) (hbreak : isBreak code = false)
    (fresh : Bool) (s : Bytes) :
    singleBody column fresh (encode code ++ s) =
      (if fresh then Bytes.spaces column else []) ++
        (doubledQuote code (encode code) ++ singleBody column false s) := by
  rw [singleBody, charactersWithBytes_encode_append hcode, indented, if_neg (by simp [hbreak]),
    ← singleBody, List.append_assoc]

/-- A sequence that starts with an ASCII character is that character. -/
theorem eq_of_encode_append_eq_cons {b : UInt8} (hcode : IsScalar code) (hb : b.toNat < 0x80)
    (h : encode code ++ t = b :: t') : code = b.toNat := by
  obtain ⟨a, r, hencode⟩ := List.exists_cons_of_ne_nil (Character.encode_ne_nil hcode)
  rw [hencode, List.cons_append, List.cons.injEq] at h
  exact (Character.eq_of_mem_encode hcode (by simp [hencode, h.1]) hb).1

theorem doubledQuote_inj (hcode : IsScalar code) (hcode' : IsScalar code')
    (h : doubledQuote code (encode code) ++ t = doubledQuote code' (encode code') ++ t') :
    code = code' ∧ t = t' := by
  rw [doubledQuote, doubledQuote] at h
  split at h <;> split at h
  · next hquote hquote' => exact ⟨hquote.trans hquote'.symm, List.append_cancel_left h⟩
  · next hquote hne => exact absurd (eq_of_encode_append_eq_cons hcode' (by decide) h.symm) hne
  · next hne hquote => exact absurd (eq_of_encode_append_eq_cons hcode (by decide) h) hne
  · exact Bytes.encode_append_inj hcode hcode' h

theorem doubledQuote_ne_nil (hcode : IsScalar code) : doubledQuote code (encode code) ≠ [] := by
  rw [doubledQuote]
  split
  · decide
  · exact Character.encode_ne_nil hcode

/-- A break is told from the indentation and the character that can stand in its place. -/
theorem break_ne (hcode : IsScalar code) (hcode' : IsScalar code') (hbreak : isBreak code = true)
    (hbreak' : isBreak code' = false) (fresh : Bool) :
    encode code ++ t ≠
      (if fresh then Bytes.spaces column else []) ++ (doubledQuote code' (encode code') ++ t') := by
  have hne : code ≠ 0x20 ∧ code ≠ 0x27 := by
    constructor <;> rintro rfl <;> nomatch hbreak
  have hcharacter : encode code ++ t ≠ doubledQuote code' (encode code') ++ t' := by
    intro h
    rw [doubledQuote] at h
    split at h
    · exact hne.2 (eq_of_encode_append_eq_cons hcode (by decide) h)
    · rw [(Bytes.encode_append_inj hcode hcode' h).1, hbreak'] at hbreak
      nomatch hbreak
  intro h
  cases fresh with
  | false => exact hcharacter h
  | true =>
    cases column with
    | zero => exact hcharacter h
    | succ column => exact hne.1 (eq_of_encode_append_eq_cons hcode (by decide) h)

/-- No space stands behind a break, and none comes first on a fresh line. -/
def Flush : (fresh : Bool) → List Nat → Prop
  | _, [] => True
  | fresh, code :: codes => (fresh = true → code ≠ 0x20) ∧ Flush (isBreak code) codes

theorem flush_of_hasPair {codes : List Nat} (h : hasPair isBreak isSpaceCode codes = false) :
    Flush false codes := by
  cases codes with
  | nil => trivial
  | cons code codes =>
    refine ⟨nofun, ?_⟩
    induction codes generalizing code with
    | nil => trivial
    | cons next codes ih =>
      have hsplit : (isBreak code && isSpaceCode next ||
          hasPair isBreak isSpaceCode (next :: codes)) = false := h
      obtain ⟨hpair, hrest⟩ := Bool.or_eq_false_iff.mp hsplit
      refine ⟨?_, ih next hrest⟩
      rintro hbreak rfl
      rw [hbreak] at hpair
      nomatch hpair

/-- The characters of a text. -/
def codes (s : Bytes) : List Nat := (Character.list s).map Character.code

theorem codes_encode_append (hcode : IsScalar code) (s : Bytes) :
    codes (encode code ++ s) = code :: codes s := by
  rw [codes, Bytes.list_encode_append hcode]
  rfl

theorem stops_doubledQuote (hcode : IsScalar code) (hspace : code ≠ 0x20) (t : Bytes) :
    Stops (· == 0x20) (doubledQuote code (encode code) ++ t) := by
  rw [doubledQuote]
  split
  · rfl
  · obtain ⟨b, r, hencode⟩ := List.exists_cons_of_ne_nil (Character.encode_ne_nil hcode)
    rw [hencode, List.cons_append, stops_cons, beq_eq_false_iff_ne]
    rintro rfl
    exact hspace (eq_of_encode_append_eq_cons (t := []) hcode (by decide)
      ((List.append_nil _).trans hencode))

/-- The indentation is told from what stands behind it. -/
theorem spaces_append_inj (ht : Stops (· == 0x20) t) (ht' : Stops (· == 0x20) t')
    (h : Bytes.spaces column ++ t = Bytes.spaces column' ++ t') : t = t' := by
  have hspaces (n : Nat) : ∀ b ∈ Bytes.spaces n, (b == 0x20) = true :=
    fun b hb => beq_iff_eq.mpr (List.eq_of_mem_replicate hb)
  rw [← dropWhile_append_of_stops (hspaces column) ht, h,
    dropWhile_append_of_stops (hspaces column') ht']

theorem singleBody_inj (hs : IsUtf8 s) (hs' : IsUtf8 s') {fresh : Bool}
    (hflush : Flush fresh (codes s)) (hflush' : Flush fresh (codes s'))
    (h : singleBody column fresh s = singleBody column' fresh s') : s = s' := by
  have hnil (column : Nat) (fresh : Bool) : singleBody column fresh [] = [] := rfl
  have hne {column code : Nat} {fresh : Bool} {s : Bytes} (hcode : IsScalar code) :
      singleBody column fresh (encode code ++ s) ≠ [] := by
    cases hbreak : isBreak code
    case true =>
      rw [singleBody_of_isBreak hcode hbreak]
      simp [Character.encode_ne_nil hcode]
    case false =>
      rw [singleBody_of_not_isBreak hcode hbreak]
      simp [doubledQuote_ne_nil hcode]
  induction hs generalizing s' fresh with
  | nil =>
    cases hs' with
    | nil => rfl
    | cons hcode' _ => exact absurd (h.symm.trans (hnil _ _)) (hne hcode')
  | @cons code s hcode _ ih =>
    cases hs' with
    | nil => exact absurd (h.trans (hnil _ _)) (hne hcode)
    | @cons code' s' hcode' hs' =>
      rw [codes_encode_append hcode] at hflush
      rw [codes_encode_append hcode'] at hflush'
      cases hbreak : isBreak code <;> cases hbreak' : isBreak code'
      case true.true =>
        rw [singleBody_of_isBreak hcode hbreak, singleBody_of_isBreak hcode' hbreak'] at h
        obtain ⟨rfl, hrest⟩ := Bytes.encode_append_inj hcode hcode' h
        rw [ih hs' (hbreak ▸ hflush.2) (hbreak ▸ hflush'.2) hrest]
      case true.false =>
        rw [singleBody_of_isBreak hcode hbreak, singleBody_of_not_isBreak hcode' hbreak'] at h
        exact absurd h (break_ne hcode hcode' hbreak hbreak' fresh)
      case false.true =>
        rw [singleBody_of_not_isBreak hcode hbreak, singleBody_of_isBreak hcode' hbreak'] at h
        exact absurd h.symm (break_ne hcode' hcode hbreak' hbreak fresh)
      case false.false =>
        rw [singleBody_of_not_isBreak hcode hbreak, singleBody_of_not_isBreak hcode' hbreak'] at h
        have hbody : doubledQuote code (encode code) ++ singleBody column false s =
            doubledQuote code' (encode code') ++ singleBody column' false s' := by
          cases fresh with
          | false => exact h
          | true =>
            exact spaces_append_inj (stops_doubledQuote hcode (hflush.1 rfl) _)
              (stops_doubledQuote hcode' (hflush'.1 rfl) _) h
        obtain ⟨rfl, hrest⟩ := doubledQuote_inj hcode hcode' hbody
        rw [ih hs' (hbreak ▸ hflush.2) (hbreak ▸ hflush'.2) hrest]

/-- Between single quotes each text has its own text, wherever it stands. -/
theorem singleQuoted_inj (hs : IsUtf8 s) (hs' : IsUtf8 s')
    (hquotable : isSingleQuotable (codes s) = true) (hquotable' : isSingleQuotable (codes s') = true)
    (h : singleQuoted column s = singleQuoted column' s') : s = s' := by
  have hflush {s : Bytes} (h : isSingleQuotable (codes s) = true) : Flush false (codes s) := by
    rw [isSingleQuotable, Bool.and_eq_true, Bool.and_eq_true, Bool.not_eq_true'] at h
    exact flush_of_hasPair h.1.1
  rw [singleQuoted_eq, singleQuoted_eq, List.cons.injEq, List.append_left_inj] at h
  exact singleBody_inj hs hs' (hflush hquotable) (hflush hquotable') h.2

theorem line_notMem_doubleQuoted (hs : IsUtf8 s) (h : 0x0A ∉ s) : 0x0A ∉ doubleQuoted s := by
  have hbody (marked : Bool) : 0x0A ∉ quotedBody marked s := by
    induction hs with
    | nil => exact List.not_mem_nil
    | cons hcode _ ih =>
      rw [List.mem_append, not_or] at h
      rw [quotedBody_encode_append _ hcode, List.mem_append, not_or]
      refine ⟨?_, ih h.2⟩
      rw [quotedUnit]
      split
      · exact fun hmem => absurd (lt_of_mem_escapeCharacter hcode hmem) (by decide)
      · exact h.1
  rw [doubleQuoted_eq]
  simp [hbody]

theorem line_notMem_singleQuoted (hs : IsUtf8 s) (h : 0x0A ∉ s) :
    0x0A ∉ singleQuoted column s := by
  have hspaces : 0x0A ∉ Bytes.spaces column := by
    intro hmem
    nomatch List.eq_of_mem_replicate hmem
  have hbody (fresh : Bool) : 0x0A ∉ singleBody column fresh s := by
    induction hs generalizing fresh with
    | nil => exact List.not_mem_nil
    | @cons code s hcode _ ih =>
      rw [List.mem_append, not_or] at h
      cases hbreak : isBreak code
      case true =>
        rw [singleBody_of_isBreak hcode hbreak, List.mem_append, not_or]
        exact ⟨h.1, ih h.2 true⟩
      case false =>
        have hquote : 0x0A ∉ doubledQuote code (encode code) := by
          rw [doubledQuote]
          split
          · decide
          · exact h.1
        rw [singleBody_of_not_isBreak hcode hbreak]
        cases fresh <;> simp [hspaces, hquote, ih h.2 false]
  rw [singleQuoted_eq]
  simp [hbody]

end Yaml

end SchemaDoc
