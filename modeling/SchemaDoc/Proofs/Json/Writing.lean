import SchemaDoc.Data.Json
import SchemaDoc.Proofs.Data.Order
import SchemaDoc.Proofs.Json.Reader

/-! # Written JSON denotes the data it was written for

The text of data is a JSON text in either layout. Its value shows the data with
sorted entries: the same texts, lists and keys, integers of equal value, and
numbers that are read as the same binary numbers.
-/

namespace SchemaDoc

open Character (encode IsScalar)
open Bytes (IsUtf8)

/-- All texts and keys are valid, and no key occurs twice in a map. -/
inductive Data.Valid : Data → Prop where
  | null : Valid .null
  | boolean (b : Bool) : Valid (.boolean b)
  | integer (n : Int) : Valid (.integer n)
  | number (x : Binary64) : Valid (.number x)
  | text {s : Bytes} : IsUtf8 s → Valid (.text s)
  | list {items : List Data} : (∀ d ∈ items, Valid d) → Valid (.list items)
  | map {entries : List (Bytes × Data)} : (entries.map Prod.fst).Nodup →
      (∀ e ∈ entries, IsUtf8 e.1) → (∀ e ∈ entries, Valid e.2) → Valid (.map entries)

namespace Json

/-- A value of JSON shows data. Members stand in the order of the entries, under distinct names. -/
inductive Value.Shows : Value → Data → Prop where
  | null : Shows .null .null
  | boolean (b : Bool) : Shows (.boolean b) (.boolean b)
  | integer {n : Number} {k : Int} : n.value = k → Shows (.number n) (.integer k)
  | number {n : Number} {x : Binary64} : n.toBinary64 = x → Shows (.number n) (.number x)
  | text (s : Bytes) : Shows (.string s) (.text s)
  | list {values : List Value} {items : List Data} : List.Forall₂ Shows values items →
      Shows (.array values) (.list items)
  | map {members : List (Bytes × Value)} {entries : List (Bytes × Data)} :
      (members.map Prod.fst).Nodup → members.map Prod.fst = entries.map Prod.fst →
      List.Forall₂ Shows (members.map Prod.snd) (entries.map Prod.snd) →
      Shows (.object members) (.map entries)

/-- A text with the value that it denotes and the data that the value shows. -/
structure Shown where
  text : Bytes
  value : Value
  data : Data
  isValue : IsValue text value
  showsData : value.Shows data

section Strings

variable {code : Nat} {s : Bytes}

theorem hexValue?_hexDigit : ∀ n < 16, Bytes.hexValue? (Bytes.hexDigit 0x61 n) = some n := by
  decide

theorem codeUnit?_hexLower (h : code < 0x10000) :
    codeUnit? (Bytes.hexLower 4 code) = some code := by
  have hdigit (n : Nat) : Bytes.hexValue? (Bytes.hexDigit 0x61 (n % 16)) = some (n % 16) :=
    hexValue?_hexDigit _ (Nat.mod_lt n (by decide))
  have hdigits : Bytes.hexLower 4 code = [Bytes.hexDigit 0x61 (code / 16 / 16 / 16 % 16),
      Bytes.hexDigit 0x61 (code / 16 / 16 % 16), Bytes.hexDigit 0x61 (code / 16 % 16),
      Bytes.hexDigit 0x61 (code % 16)] := rfl
  rw [hdigits, codeUnit?]
  simp only [hdigit, Option.some.injEq]
  omega

theorem isCharacter_unicode (h : code < 0xD800) :
    IsCharacter (bytes "\\u" ++ Bytes.hexLower 4 code) code :=
  .unit (codeUnit?_hexLower (by omega)) (.inl h)

theorem isCharacter_escape (l : Layout) (h : code < 0xD800) : IsCharacter (escape l code) code := by
  unfold escape
  split
  · next hcode =>
    rw [hcode]
    exact .short (rfl : shortEscape? 0x22 = some 0x22)
  split
  · next hcode =>
    rw [hcode]
    exact .short (rfl : shortEscape? 0x5C = some 0x5C)
  split
  · next hcode =>
    rw [hcode]
    exact .short (rfl : shortEscape? 0x6E = some 0x0A)
  split
  · next hcode =>
    rw [hcode]
    exact .short (rfl : shortEscape? 0x72 = some 0x0D)
  split
  · next hcode =>
    rw [hcode]
    exact .short (rfl : shortEscape? 0x74 = some 0x09)
  split
  · next hcode =>
    rw [decide_eq_true_iff.mp (Bool.and_eq_true_iff.mp hcode).2]
    exact .short (rfl : shortEscape? 0x62 = some 0x08)
  split
  · next hcode =>
    rw [decide_eq_true_iff.mp (Bool.and_eq_true_iff.mp hcode).2]
    exact .short (rfl : shortEscape? 0x66 = some 0x0C)
  · exact isCharacter_unicode h

/-- What stands for a character in a string denotes the character. -/
theorem isCharacter_written (l : Layout) (h : IsScalar code) :
    IsCharacter (if isEscaped code then escape l code else encode code) code := by
  by_cases hescaped : isEscaped code = true
  · rw [if_pos hescaped]
    simp only [isEscaped, Bool.or_eq_true, decide_eq_true_eq, beq_iff_eq] at hescaped
    exact isCharacter_escape l (by omega)
  · rw [if_neg hescaped]
    simp only [isEscaped, Bool.or_eq_true, decide_eq_true_eq, beq_iff_eq] at hescaped
    exact .plain h (by omega) (by omega) (by omega)

theorem isString_string (l : Layout) (h : IsUtf8 s) : IsString (string l s) s := by
  rw [string]
  refine IsString.quoted (s := s.mapCharacters _) ?_
  induction h with
  | nil => exact .nil
  | @cons code s hcode _ ih =>
    rw [Bytes.mapCharacters_encode_append _ hcode]
    simp only [Bytes.isInvalid_encode, Bool.false_eq_true, if_false]
    exact .cons (isCharacter_written l hcode) ih

end Strings

private theorem bytes_comma : bytes "," = [0x2C] := rfl

section Layouts

variable {α : Type} {p : Bytes → α → Prop} {g h : Bytes} {parts : List Bytes} {as : List α}

theorem isSpace_nil : IsSpace [] := nofun

theorem isSpace_lineBreak (l : Layout) (depth : Nat) : IsSpace (l.lineBreak depth) := by
  cases l with
  | compact => exact isSpace_nil
  | indented =>
    intro b hb
    rcases List.mem_cons.mp hb with rfl | hb
    · rfl
    · rw [List.eq_of_mem_replicate hb]
      rfl

theorem isListing_join (hparts : List.Forall₂ p parts as) (hne : parts ≠ []) (hg : IsSpace g)
    (hh : IsSpace h) : IsListing p (g ++ (Bytes.join (bytes "," ++ g) parts ++ h)) as := by
  induction hparts with
  | nil => exact absurd rfl hne
  | @cons s a parts as hs hparts ih =>
    cases parts with
    | nil =>
      cases hparts
      simpa [Bytes.join] using IsListing.last hg hs hh
    | cons t parts =>
      have htext : g ++ (Bytes.join (bytes "," ++ g) (s :: t :: parts) ++ h) =
          g ++ (s ++ ([] ++ 0x2C :: (g ++ (Bytes.join (bytes "," ++ g) (t :: parts) ++ h)))) := by
        simp [Bytes.join, bytes_comma]
      rw [htext]
      exact .cons hg hs isSpace_nil (ih (by simp))

theorem isMember_entry (l : Layout) {s key : Bytes} {a : α} (hkey : IsUtf8 key) (hs : p s a) :
    IsMember p (string l key ++ l.colon ++ s) (key, a) := by
  have hstring := isString_string l hkey
  have hblank : IsSpace [0x20] := List.forall_mem_singleton.mpr rfl
  rw [List.append_assoc]
  cases l with
  | compact => exact .named hstring isSpace_nil isSpace_nil hs
  | indented => exact .named hstring isSpace_nil hblank hs

/-- The parts of a list stand in its text between the brackets. -/
theorem isListing_enclose (l : Layout) (opening closing : UInt8) (depth : Nat)
    (hparts : List.Forall₂ p parts as) (hne : parts ≠ []) :
    ∃ s, enclose l opening closing depth parts = opening :: (s ++ [closing]) ∧
      IsListing p s as := by
  refine ⟨_, ?_, isListing_join hparts hne (isSpace_lineBreak l (depth + 1))
    (isSpace_lineBreak l depth)⟩
  rw [enclose, if_neg (by simpa using hne)]
  simp

theorem isValue_array (l : Layout) (depth : Nat) {values : List Value}
    (hparts : List.Forall₂ IsValue parts values) :
    IsValue (enclose l 0x5B 0x5D depth parts) (.array values) := by
  by_cases hne : parts = []
  · subst hne
    cases hparts
    exact .emptyArray isSpace_nil
  · obtain ⟨s, hs, hlisting⟩ := isListing_enclose l 0x5B 0x5D depth hparts hne
    rw [hs]
    exact .array hlisting

theorem isValue_object (l : Layout) (depth : Nat) {members : List (Bytes × Value)}
    (hparts : List.Forall₂ (IsMember IsValue) parts members) :
    IsValue (enclose l 0x7B 0x7D depth parts) (.object members) := by
  by_cases hne : parts = []
  · subst hne
    cases hparts
    exact .emptyObject isSpace_nil
  · obtain ⟨s, hs, hlisting⟩ := isListing_enclose l 0x7B 0x7D depth hparts hne
    rw [hs]
    exact .object hlisting

end Layouts

section Parts

variable (l : Layout) (depth : Nat)

/-- A list from what its parts show. -/
def Shown.ofItems (rows : List Shown) : Shown where
  text := enclose l 0x5B 0x5D depth (rows.map Shown.text)
  value := .array (rows.map Shown.value)
  data := .list (rows.map Shown.data)
  isValue := isValue_array l depth <| by
    rw [List.forall₂_map_left_iff, List.forall₂_map_right_iff, List.forall₂_same]
    exact fun row _ => row.isValue
  showsData := .list <| by
    rw [List.forall₂_map_left_iff, List.forall₂_map_right_iff, List.forall₂_same]
    exact fun row _ => row.showsData

/-- A map from what its parts show. -/
def Shown.ofEntries (rows : List (Bytes × Shown)) (hkeys : (rows.map Prod.fst).Nodup)
    (hvalid : ∀ row ∈ rows, IsUtf8 row.1) : Shown where
  text := enclose l 0x7B 0x7D depth (rows.map fun row => string l row.1 ++ l.colon ++ row.2.text)
  value := .object (rows.map fun row => (row.1, row.2.value))
  data := .map (rows.map fun row => (row.1, row.2.data))
  isValue := isValue_object l depth <| by
    rw [List.forall₂_map_left_iff, List.forall₂_map_right_iff, List.forall₂_same]
    exact fun row hrow => isMember_entry l (hvalid row hrow) row.2.isValue
  showsData := by
    apply Value.Shows.map
    · simpa [Function.comp_def] using hkeys
    · simp
    · rw [List.map_map, List.map_map, List.forall₂_map_left_iff, List.forall₂_map_right_iff,
        List.forall₂_same]
      exact fun row _ => row.2.showsData

end Parts

theorem exists_shown_integer (n : Int) :
    ∃ row : Shown, row.text = Bytes.signed n ∧ row.data = .integer n :=
  ⟨⟨Bytes.signed n, _, .integer n, .number (Number.isNumber_signed n),
    .integer (Number.value_signed n)⟩, rfl, rfl⟩

theorem exists_shown_number {l : Layout} {x : Binary64} {text : Bytes} (h : number l x = .ok text) :
    ∃ row : Shown, row.text = text ∧ row.data = .number x := by
  rw [number] at h
  split at h
  · nomatch h
  · next hinfinite =>
    cases h
    obtain ⟨hnumber, hvalue⟩ :=
      Number.isNumber_write l.numberStyle (Bool.eq_false_iff.mpr hinfinite)
    exact ⟨⟨_, _, .number x, .number hnumber, .number hvalue⟩, rfl, rfl⟩

private theorem exists_of_map_eq_ok {ε α β : Type} {x : Except ε α} {f : α → β} {b : β}
    (h : x.map f = .ok b) : ∃ a, x = .ok a ∧ f a = b := by
  cases x with
  | error e => nomatch h
  | ok a => exact ⟨a, rfl, Except.ok.inj h⟩

mutual

/-- Written data is the text of a value that shows it. -/
theorem exists_shown (l : Layout) (depth : Nat) (d : Data) (hd : d.Valid) {text : Bytes}
    (h : write l depth d = .ok text) : ∃ row : Shown, row.text = text ∧ row.data = d.sorted := by
  match d, hd with
  | .null, _ =>
    cases h
    exact ⟨⟨_, _, .null, .null, .null⟩, rfl, rfl⟩
  | .boolean b, _ =>
    cases h
    cases b with
    | false => exact ⟨⟨_, _, .boolean false, .false, .boolean false⟩, rfl, rfl⟩
    | true => exact ⟨⟨_, _, .boolean true, .true, .boolean true⟩, rfl, rfl⟩
  | .integer n, _ =>
    cases h
    exact exists_shown_integer n
  | .number x, _ => exact exists_shown_number h
  | .text s, .text hs =>
    cases h
    exact ⟨⟨_, _, .text s, .string (isString_string l hs), .text s⟩, rfl, rfl⟩
  | .list items, .list hitems =>
    rw [write] at h
    obtain ⟨texts, htexts, rfl⟩ := exists_of_map_eq_ok h
    obtain ⟨rows, rfl, hdata⟩ := exists_shown_items l (depth + 1) items hitems htexts
    refine ⟨.ofItems l depth rows, rfl, ?_⟩
    rw [Data.sorted, Data.sortedItems_eq, ← hdata]
    rfl
  | .map entries, .map hkeys hvalid hentries =>
    rw [write] at h
    obtain ⟨parts, hparts, rfl⟩ := exists_of_map_eq_ok h
    obtain ⟨rows, rfl, hdata⟩ := exists_shown_entries l (depth + 1) entries hentries hparts
    have hnames : rows.map Prod.fst = entries.map Prod.fst := by
      simpa [Function.comp_def] using congrArg (List.map Prod.fst) hdata
    have hperm := Data.sortEntries_perm Bytes.le rows
    have hnodup : ((Data.sortEntries Bytes.le rows).map Prod.fst).Nodup := by
      rw [(hperm.map Prod.fst).nodup_iff, hnames]
      exact hkeys
    have hutf8 : ∀ row ∈ Data.sortEntries Bytes.le rows, IsUtf8 row.1 := by
      intro row hrow
      have hmem : row.1 ∈ entries.map Prod.fst := by
        rw [← hnames]
        exact List.mem_map_of_mem (hperm.mem_iff.mp hrow)
      obtain ⟨e, he, hkey⟩ := List.mem_map.mp hmem
      rw [← hkey]
      exact hvalid e he
    refine ⟨.ofEntries l depth _ hnodup hutf8, ?_, ?_⟩
    · rw [← Data.map_sortEntries Shown.text, List.map_map]
      rfl
    · rw [Data.sorted, Data.sortedEntries_eq, ← hdata, ← Data.map_sortEntries Shown.data]
      rfl

theorem exists_shown_items (l : Layout) (depth : Nat) (items : List Data)
    (hitems : ∀ d ∈ items, d.Valid) {texts : List Bytes}
    (h : writeItems l depth items = .ok texts) :
    ∃ rows : List Shown, rows.map Shown.text = texts ∧
      rows.map Shown.data = items.map Data.sorted := by
  match items with
  | [] =>
    cases h
    exact ⟨[], rfl, rfl⟩
  | d :: items =>
    obtain ⟨hd, hitems⟩ := List.forall_mem_cons.mp hitems
    rw [writeItems] at h
    split at h
    · nomatch h
    · next text htext =>
      obtain ⟨texts, htexts, rfl⟩ := exists_of_map_eq_ok h
      obtain ⟨row, rfl, hrow⟩ := exists_shown l depth d hd htext
      obtain ⟨rows, rfl, hrows⟩ := exists_shown_items l depth items hitems htexts
      exact ⟨row :: rows, rfl, by rw [List.map_cons, List.map_cons, hrow, hrows]⟩

theorem exists_shown_entries (l : Layout) (depth : Nat) (entries : List (Bytes × Data))
    (hentries : ∀ e ∈ entries, e.2.Valid) {parts : List (Bytes × Bytes)}
    (h : writeEntries l depth entries = .ok parts) :
    ∃ rows : List (Bytes × Shown), rows.map (fun row => (row.1, row.2.text)) = parts ∧
      rows.map (fun row => (row.1, row.2.data)) = entries.map fun e => (e.1, e.2.sorted) := by
  match entries with
  | [] =>
    cases h
    exact ⟨[], rfl, rfl⟩
  | (key, d) :: entries =>
    obtain ⟨hd, hentries⟩ := List.forall_mem_cons.mp hentries
    rw [writeEntries] at h
    split at h
    · nomatch h
    · next text htext =>
      obtain ⟨parts, hparts, rfl⟩ := exists_of_map_eq_ok h
      obtain ⟨row, rfl, hrow⟩ := exists_shown l depth d hd htext
      obtain ⟨rows, rfl, hrows⟩ := exists_shown_entries l depth entries hentries hparts
      exact ⟨(key, row) :: rows, rfl, by rw [List.map_cons, List.map_cons, hrow, hrows]⟩

end

end Json

end SchemaDoc
