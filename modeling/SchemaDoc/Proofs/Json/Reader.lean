import SchemaDoc.Proofs.Json.Grammar
import SchemaDoc.Proofs.Text.Utf8

/-! # Reading JSON

A reader for JSON texts by recursive descent. Each function takes what it reads
from the front of a text and returns the rest. The reader finds the value of
every text that denotes one, so no text denotes two values.
-/

namespace SchemaDoc.Json

open Character (encode IsScalar)
open Grammar (Lexeme Stops)

namespace Reader

def skipSpace (s : Bytes) : Bytes := s.dropWhile isSpace

def codeUnit? (s : Bytes) : Option (Nat × Bytes) := (Json.codeUnit? (s.take 4)).map (·, s.drop 4)

/-- The character behind `\u`; a surrogate needs its other half behind it. -/
def unicode? (s : Bytes) : Option (Nat × Bytes) := do
  let (unit, s) ← codeUnit? s
  if unit < 0xD800 || 0xE000 ≤ unit then
    some (unit, s)
  else
    let s ← Bytes.strip? [0x5C, 0x75] s
    let (low, s) ← codeUnit? s
    if unit < 0xDC00 && 0xDC00 ≤ low && low < 0xE000 then
      some (0x10000 + (unit - 0xD800) * 0x400 + (low - 0xDC00), s)
    else none

/-- The character behind a backslash. -/
def escaped? : Bytes → Option (Nat × Bytes)
  | [] => none
  | letter :: s =>
    if letter = 0x75 then unicode? s else (shortEscape? letter).map fun code => (code.toNat, s)

def character? (s : Bytes) : Option (Nat × Bytes) :=
  let r := Character.first s
  if r.isInvalid || r.code < 0x20 then none
  else if r.code = 0x5C then escaped? (s.drop 1)
  else some (r.code, s.drop r.width)

/-- The text up to the closing quote. -/
def characters? : (fuel : Nat) → Bytes → Option (Bytes × Bytes)
  | 0, _ => none
  | fuel + 1, s =>
    match Bytes.strip? [0x22] s with
    | some rest => some ([], rest)
    | none => do
      let (code, s) ← character? s
      let (text, s) ← characters? fuel s
      some (encode code ++ text, s)

def string? (s : Bytes) : Option (Bytes × Bytes) := do
  let s ← Bytes.strip? [0x22] s
  characters? (s.length + 1) s

section Listing

variable {α : Type} (part? : Bytes → Option (α × Bytes))

/-- Parts with commas between them, up to the closing bracket. -/
def listing? (closing : UInt8) : (fuel : Nat) → Bytes → Option (List α × Bytes)
  | 0, _ => none
  | fuel + 1, s => do
    let (a, s) ← part? (skipSpace s)
    match skipSpace s with
    | [] => none
    | b :: s =>
      if b = closing then some ([a], s)
      else if b = 0x2C then do
        let (as, s) ← listing? closing fuel s
        some (a :: as, s)
      else none

/-- What stands behind an opening bracket. -/
def bracketed? (closing : UInt8) (s : Bytes) : Option (List α × Bytes) :=
  match Bytes.strip? [closing] (skipSpace s) with
  | some rest => some ([], rest)
  | none => listing? part? closing (s.length + 1) s

def member? (s : Bytes) : Option ((Bytes × α) × Bytes) := do
  let (name, s) ← string? s
  let s ← Bytes.strip? [0x3A] (skipSpace s)
  let (a, s) ← part? (skipSpace s)
  some ((name, a), s)

end Listing

def words : List (Bytes × Value) :=
  [(bytes "null", .null), (bytes "true", .boolean true), (bytes "false", .boolean false)]

def word? (s : Bytes) : Option (Value × Bytes) :=
  words.findSome? fun w => (Bytes.strip? w.1 s).map (w.2, ·)

def number? (s : Bytes) : Option (Value × Bytes) :=
  (Lexeme.number? s).map fun n => (.number (.ofLiteral (s.take n)), s.drop n)

/-- The value at the start of a text. -/
def value? : (fuel : Nat) → Bytes → Option (Value × Bytes)
  | 0, _ => none
  | _ + 1, [] => none
  | fuel + 1, b :: s =>
    if b = 0x22 then (string? (b :: s)).map fun r => (.string r.1, r.2)
    else if b = 0x5B then (bracketed? (value? fuel) 0x5D s).map fun r => (.array r.1, r.2)
    else if b = 0x7B then
      (bracketed? (member? (value? fuel)) 0x7D s).map fun r => (.object r.1, r.2)
    else if Bytes.isLower b then word? (b :: s)
    else number? (b :: s)

end Reader

/-- The value that a whole text denotes. -/
def read? (s : Bytes) : Option Value := do
  let (v, rest) ← Reader.value? (s.length + 1) (Reader.skipSpace s)
  if Reader.skipSpace rest = [] then some v else none

namespace Reader

variable {g r s t u : Bytes} {code : Nat}

theorem skipSpace_append (hg : IsSpace g) (hr : Stops isSpace r) : skipSpace (g ++ r) = r :=
  Grammar.dropWhile_append_of_stops hg hr

theorem skipSpace_append_cons {b : UInt8} (hg : IsSpace g) (hb : isSpace b = false) (r : Bytes) :
    skipSpace (g ++ b :: r) = b :: r :=
  skipSpace_append hg (Grammar.stops_cons.mpr hb)

theorem strip?_cons (b : UInt8) (r : Bytes) : Bytes.strip? [b] (b :: r) = some r :=
  Bytes.strip?_eq_some_iff.mpr rfl

theorem codeUnit?_append (h : Json.codeUnit? s = some code) (r : Bytes) :
    codeUnit? (s ++ r) = some (code, r) := by
  have hlength : s.length = 4 := by
    match s, h with
    | [_, _, _, _], _ => rfl
  rw [codeUnit?, ← hlength, List.take_left, List.drop_left, h]
  rfl

theorem character?_backslash (s : Bytes) : character? (0x5C :: s) = escaped? s := by
  have hfirst : Character.first (0x5C :: s) = ⟨0x5C, 1⟩ :=
    Bytes.first_encode_append (.inl (by decide) : IsScalar 0x5C) s
  rw [character?, hfirst]
  rfl

theorem character?_append (h : IsCharacter u code) (r : Bytes) :
    character? (u ++ r) = some (code, r) := by
  cases h with
  | plain hscalar hcontrol hquote hslash =>
    rw [character?, Bytes.first_encode_append hscalar]
    simp only [Bytes.isInvalid_encode, Bool.false_or, decide_eq_true_eq]
    rw [if_neg (by omega), if_neg hslash, List.drop_left]
  | @short letter code hletter =>
    have hne : letter ≠ 0x75 := by
      rintro rfl
      nomatch hletter
    rw [List.cons_append, character?_backslash, List.singleton_append, escaped?, if_neg hne,
      hletter]
    rfl
  | unit hunit hscalar =>
    rw [List.cons_append, character?_backslash, List.cons_append, escaped?, if_pos rfl, unicode?,
      codeUnit?_append hunit]
    simp only [Option.bind_eq_bind, Option.bind_some, Bool.or_eq_true, decide_eq_true_eq]
    rw [if_pos (by unfold IsScalar at hscalar; omega)]
  | @pair high low h l hhigh hh hlow hl =>
    rw [List.cons_append, character?_backslash, List.cons_append, escaped?, if_pos rfl, unicode?,
      List.append_assoc, codeUnit?_append hhigh]
    have hstrip : Bytes.strip? [0x5C, 0x75] (0x5C :: 0x75 :: low ++ r) = some (low ++ r) := rfl
    simp only [Option.bind_eq_bind, Option.bind_some, Bool.or_eq_true, decide_eq_true_eq]
    rw [if_neg (by omega), hstrip, Option.bind_some, codeUnit?_append hlow, Option.bind_some]
    simp only [Bool.and_eq_true, decide_eq_true_eq]
    rw [if_pos (by omega), Nat.add_sub_cancel_left, Nat.add_sub_cancel_left]

/-- A character of a string does not start with the quote that ends the string. -/
theorem exists_first_of_character (h : IsCharacter u code) : ∃ b t, u = b :: t ∧ b ≠ 0x22 := by
  cases h with
  | @plain code hscalar hcontrol hquote hslash =>
    obtain ⟨b, t, hu⟩ := List.exists_cons_of_ne_nil (Character.encode_ne_nil hscalar)
    refine ⟨b, t, hu, ?_⟩
    rintro rfl
    have hmem : 0x22 ∈ encode code := by simp [hu]
    exact hquote (Character.eq_of_mem_encode hscalar hmem (by decide)).1
  | short _ => exact ⟨0x5C, _, rfl, by decide⟩
  | unit _ _ => exact ⟨0x5C, _, rfl, by decide⟩
  | pair _ _ _ _ => exact ⟨0x5C, _, rfl, by decide⟩

theorem characters?_append (h : IsCharacters s t) {fuel : Nat} (hfuel : s.length < fuel)
    (r : Bytes) : characters? fuel (s ++ 0x22 :: r) = some (t, r) := by
  induction h generalizing fuel with
  | nil =>
    obtain ⟨fuel, rfl⟩ := Nat.exists_eq_add_one_of_ne_zero (Nat.ne_zero_of_lt hfuel)
    rfl
  | @cons u s t code hu _ ih =>
    obtain ⟨fuel, rfl⟩ := Nat.exists_eq_add_one_of_ne_zero (Nat.ne_zero_of_lt hfuel)
    obtain ⟨b, w, hb, hne⟩ := exists_first_of_character hu
    have hstrip : Bytes.strip? [0x22] (u ++ (s ++ 0x22 :: r)) = none := by
      rw [hb, List.cons_append, Bytes.strip?, if_neg hne.symm]
    have hlength : s.length < fuel := by
      rw [hb, List.length_append, List.length_cons] at hfuel
      omega
    rw [List.append_assoc, characters?, hstrip]
    simp only [character?_append hu, ih hlength, Option.bind_eq_bind, Option.bind_some]

theorem string?_append (h : IsString s t) (r : Bytes) : string? (s ++ r) = some (t, r) := by
  obtain ⟨hs⟩ := h
  rw [string?, List.cons_append, List.append_assoc, strip?_cons]
  apply characters?_append hs
  rw [List.length_append]
  omega

/-- A text that cannot go on with a number that stands in front of it. -/
def Ends (r : Bytes) : Prop := Stops (fun b => Grammar.isNameContinue b || b == 0x2E) r

theorem ends_space_append (hg : IsSpace g) (hr : Ends r) : Ends (g ++ r) := by
  cases g with
  | nil => exact hr
  | cons b g =>
    have hb := hg b List.mem_cons_self
    simp only [isSpace, Bool.or_eq_true, beq_iff_eq] at hb
    rcases hb with ((rfl | rfl) | rfl) | rfl <;> rfl

/-- The bytes that start a value. -/
def startsValue (b : UInt8) : Bool :=
  b == 0x22 || b == 0x5B || b == 0x7B || b == 0x2D || Bytes.isDigit b || Bytes.isLower b

theorem isSpace_of_startsValue {b : UInt8} (h : startsValue b = true) : isSpace b = false := by
  rw [Bool.eq_false_iff]
  intro hb
  simp only [isSpace, Bool.or_eq_true, beq_iff_eq] at hb
  rcases hb with ((rfl | rfl) | rfl) | rfl <;> nomatch h

/-- A closing bracket. -/
def IsClosing (b : UInt8) : Prop := b = 0x5D ∨ b = 0x7D

namespace IsClosing

variable {closing b : UInt8}

theorem ne_comma (h : IsClosing closing) : closing ≠ 0x2C := by
  rcases h with rfl | rfl <;> decide

theorem isSpace_eq (h : IsClosing closing) : isSpace closing = false := by
  rcases h with rfl | rfl <;> rfl

theorem ends_cons (h : IsClosing closing) (r : Bytes) : Ends (closing :: r) := by
  rcases h with rfl | rfl <;> rfl

theorem ne_of_startsValue (h : IsClosing closing) (hb : startsValue b = true) : closing ≠ b := by
  rintro rfl
  rcases h with rfl | rfl <;> nomatch hb

end IsClosing

/-- The parts below a length are read from the front of a text. -/
structure ReadsBelow {α : Type} (bound : Nat) (p : Bytes → α → Prop)
    (part? : Bytes → Option (α × Bytes)) : Prop where
  starts : ∀ {s a}, p s a → ∃ b t, s = b :: t ∧ startsValue b = true
  reads : ∀ {s a r}, p s a → s.length < bound → Ends r → part? (s ++ r) = some (a, r)

section Listing

variable {α : Type} {bound : Nat} {p : Bytes → α → Prop} {part? : Bytes → Option (α × Bytes)}
  {closing : UInt8} {as : List α}

theorem ReadsBelow.stops (hp : ReadsBelow bound p part?) {a : α} (h : p s a) (r : Bytes) :
    Stops isSpace (s ++ r) := by
  obtain ⟨b, t, rfl, hb⟩ := hp.starts h
  exact isSpace_of_startsValue hb

theorem listing?_append (hp : ReadsBelow bound p part?) (hclosing : IsClosing closing)
    (h : IsListing p s as) (hbound : s.length < bound) {fuel : Nat} (hfuel : s.length < fuel)
    (r : Bytes) : listing? part? closing fuel (s ++ closing :: r) = some (as, r) := by
  induction h generalizing fuel with
  | @last g s h a hg ha hh =>
    obtain ⟨fuel, rfl⟩ := Nat.exists_eq_add_one_of_ne_zero (Nat.ne_zero_of_lt hfuel)
    simp only [List.length_append] at hbound
    rw [List.append_assoc, List.append_assoc, listing?, skipSpace_append hg (hp.stops ha _),
      hp.reads ha (by omega) (ends_space_append hh (hclosing.ends_cons r))]
    simp only [Option.bind_eq_bind, Option.bind_some]
    rw [skipSpace_append_cons hh hclosing.isSpace_eq]
    simp only [if_true]
  | @cons g s h t a as hg ha hh _ ih =>
    obtain ⟨fuel, rfl⟩ := Nat.exists_eq_add_one_of_ne_zero (Nat.ne_zero_of_lt hfuel)
    simp only [List.length_append, List.length_cons] at hbound hfuel
    have hcomma : Ends (0x2C :: (t ++ closing :: r)) := rfl
    rw [List.append_assoc, List.append_assoc, List.append_assoc, List.cons_append, listing?,
      skipSpace_append hg (hp.stops ha _),
      hp.reads ha (by omega) (ends_space_append hh hcomma)]
    simp only [Option.bind_eq_bind, Option.bind_some]
    rw [skipSpace_append_cons hh rfl]
    simp only [if_neg hclosing.ne_comma.symm, if_true]
    rw [ih (by omega) (by omega), Option.bind_some]

theorem bracketed?_append (hp : ReadsBelow bound p part?) (hclosing : IsClosing closing)
    (h : IsListing p s as) (hbound : s.length < bound) (r : Bytes) :
    bracketed? part? closing (s ++ closing :: r) = some (as, r) := by
  have hfirst : ∃ g b t, s = g ++ b :: t ∧ IsSpace g ∧ startsValue b = true := by
    cases h with
    | @last g s h a hg ha hh =>
      obtain ⟨b, t, rfl, hb⟩ := hp.starts ha
      exact ⟨g, b, t ++ h, rfl, hg, hb⟩
    | @cons g s h t a as hg ha hh _ =>
      obtain ⟨b, u, rfl, hb⟩ := hp.starts ha
      exact ⟨g, b, u ++ (h ++ 0x2C :: t), rfl, hg, hb⟩
  obtain ⟨g, b, t, hs, hg, hb⟩ := hfirst
  have hstrip : Bytes.strip? [closing] (skipSpace (s ++ closing :: r)) = none := by
    rw [hs, List.append_assoc, List.cons_append,
      skipSpace_append_cons hg (isSpace_of_startsValue hb), Bytes.strip?,
      if_neg (hclosing.ne_of_startsValue hb)]
  rw [bracketed?, hstrip]
  apply listing?_append hp hclosing h hbound
  rw [List.length_append]
  omega

theorem bracketed?_empty (part? : Bytes → Option (α × Bytes)) (hclosing : IsClosing closing)
    (hg : IsSpace g) (r : Bytes) : bracketed? part? closing (g ++ closing :: r) = some ([], r) := by
  rw [bracketed?, skipSpace_append_cons hg hclosing.isSpace_eq, strip?_cons]

theorem ReadsBelow.member (hp : ReadsBelow bound p part?) :
    ReadsBelow bound (IsMember p) (member? part?) where
  starts := by
    rintro _ _ ⟨⟨hn⟩, -, -, -⟩
    exact ⟨0x22, _, rfl, rfl⟩
  reads := by
    rintro _ _ r ⟨hn, hg, hh, ha⟩ hbound hr
    simp only [List.length_append, List.length_cons] at hbound
    rw [List.append_assoc, List.append_assoc, List.cons_append, List.append_assoc, member?,
      string?_append hn]
    simp only [Option.bind_eq_bind, Option.bind_some]
    rw [skipSpace_append_cons hg rfl, strip?_cons, Option.bind_some,
      skipSpace_append hh (hp.stops ha r), hp.reads ha (by omega) hr, Option.bind_some]

end Listing

theorem exists_first_of_value {v : Value} (h : IsValue s v) :
    ∃ b t, s = b :: t ∧ startsValue b = true := by
  cases h with
  | null => exact ⟨_, _, rfl, rfl⟩
  | true => exact ⟨_, _, rfl, rfl⟩
  | false => exact ⟨_, _, rfl, rfl⟩
  | number h =>
    obtain ⟨b, t, hs, hb⟩ := h.exists_first
    exact ⟨b, t, hs, by rcases hb with rfl | hb <;> simp [startsValue, *]⟩
  | string h =>
    obtain ⟨hs⟩ := h
    exact ⟨_, _, rfl, rfl⟩
  | emptyArray _ => exact ⟨_, _, rfl, rfl⟩
  | array _ => exact ⟨_, _, rfl, rfl⟩
  | emptyObject _ => exact ⟨_, _, rfl, rfl⟩
  | object _ => exact ⟨_, _, rfl, rfl⟩

theorem value?_number {b : UInt8} (hb : b = 0x2D ∨ Bytes.isDigit b = true) (fuel : Nat)
    (s : Bytes) : value? (fuel + 1) (b :: s) = number? (b :: s) := by
  rcases hb with rfl | hb
  · rfl
  · have hdigit := Bytes.isDigit_iff.mp hb
    have hlower : ¬ Bytes.isLower b = true := by
      simp only [Bytes.isLower, Bool.and_eq_true, decide_eq_true_eq, UInt8.le_iff_toNat_le,
        UInt8.reduceToNat]
      omega
    have hne (c : UInt8) (hc : 0x39 < c.toNat ∨ c.toNat < 0x30) : ¬ b = c := by
      rintro rfl
      omega
    rw [value?, if_neg (hne _ (by decide)), if_neg (hne _ (by decide)), if_neg (hne _ (by decide)),
      if_neg hlower]

/-- A value is read with more fuel than it has bytes. -/
theorem value?_append {fuel : Nat} {v : Value} (h : IsValue s v) (hfuel : s.length < fuel)
    (hr : Ends r) : value? fuel (s ++ r) = some (v, r) := by
  induction fuel generalizing s v r with
  | zero => exact absurd hfuel (Nat.not_lt_zero _)
  | succ fuel ih =>
    -- The parts of a list or an object have less bytes than the value, which has two brackets more.
    have hp : ReadsBelow fuel IsValue (value? fuel) := ⟨exists_first_of_value, ih⟩
    cases h with
    | null => rfl
    | true => rfl
    | false => rfl
    | number h =>
      obtain ⟨b, t, rfl, hb⟩ := h.exists_first
      rw [List.cons_append, value?_number hb, ← List.cons_append, number?,
        Lexeme.number?_append h hr, Option.map_some, List.take_left, List.drop_left]
    | string h =>
      have hread : value? (fuel + 1) (s ++ r) =
          (string? (s ++ r)).map fun r => (.string r.1, r.2) := by
        obtain ⟨hs⟩ := h
        rfl
      rw [hread, string?_append h, Option.map_some]
    | @emptyArray g hg =>
      change (bracketed? (value? fuel) 0x5D (g ++ [0x5D] ++ r)).map _ = _
      rw [List.append_assoc, List.singleton_append, bracketed?_empty _ (.inl rfl) hg,
        Option.map_some]
    | @array s items hs =>
      simp only [List.length_cons, List.length_append] at hfuel
      change (bracketed? (value? fuel) 0x5D (s ++ [0x5D] ++ r)).map _ = _
      rw [List.append_assoc, List.singleton_append,
        bracketed?_append hp (.inl rfl) hs (by omega), Option.map_some]
    | @emptyObject g hg =>
      change (bracketed? (member? (value? fuel)) 0x7D (g ++ [0x7D] ++ r)).map _ = _
      rw [List.append_assoc, List.singleton_append, bracketed?_empty _ (.inr rfl) hg,
        Option.map_some]
    | @object s members hs =>
      simp only [List.length_cons, List.length_append] at hfuel
      change (bracketed? (member? (value? fuel)) 0x7D (s ++ [0x7D] ++ r)).map _ = _
      rw [List.append_assoc, List.singleton_append,
        bracketed?_append hp.member (.inr rfl) hs (by omega), Option.map_some]

end Reader

/-- The reader finds the value of every text that denotes one. -/
theorem read?_eq_some {s : Bytes} {v : Value} (h : IsText s v) : read? s = some v := by
  cases h with
  | @around g s h _ hg hs hh =>
    obtain ⟨b, t, rfl, hb⟩ := Reader.exists_first_of_value hs
    have hends : Reader.Ends h := by
      simpa using Reader.ends_space_append hh (r := []) trivial
    have hend : Reader.skipSpace h = [] := by
      simpa using Reader.skipSpace_append hh (r := []) trivial
    have hskip : Reader.skipSpace (g ++ (b :: t ++ h)) = b :: t ++ h :=
      Reader.skipSpace_append_cons hg (Reader.isSpace_of_startsValue hb) _
    have hfuel : (b :: t).length < (g ++ (b :: t ++ h)).length + 1 := by
      rw [List.length_append, List.length_append]
      omega
    rw [read?, hskip, Reader.value?_append hs hfuel hends]
    simp [hend]

example : read? (bytes " [true, \x7b\"a\": \"\\ud83d\\ude00\"\x7d]") =
    some (.array [.boolean true, .object [(bytes "a", .string (encode 0x1F600))]]) := rfl

example : read? (bytes "[1,]") = none := rfl

end SchemaDoc.Json
