import SchemaDoc.Proofs.Yaml.KeyOrder
import SchemaDoc.Proofs.Yaml.Scalar

/-! # Nesting is told by indentation

What is nested starts behind the column of what it is nested in, and nothing goes
on there after its end. So the text of data is told from whatever follows it, part
by part: the keys, whether a value is nested, and the value itself.

An integer may have the text of a binary number. Which of the two it is must be
clear from its key.
-/

namespace SchemaDoc.Yaml

variable {column column' : Nat} {key key' r r' s s' : Bytes} {d d' : Data}

/-- Whether a text is written plain. -/
def isBare (s : Bytes) : Bool :=
  s.isValidUtf8 && !(codes s).contains 0x0A && !readsOtherwise s && isPlain s (codes s)

theorem ofText_of_isBare (h : isBare s = true) (column : Nat) :
    Scalar.ofText column s = ⟨s, false⟩ := by
  simp only [isBare, codes, Bool.and_eq_true, Bool.not_eq_true'] at h
  obtain ⟨⟨⟨hvalid, hline⟩, hread⟩, hplain⟩ := h
  simp only [Scalar.ofText, hvalid, hline, hread, hplain, Bool.not_true, Bool.false_eq_true,
    if_false, if_true]

/-- A short word of letters that is written plain. -/
def IsBareKey (key : Bytes) : Prop :=
  key ≠ [] ∧ (∀ b ∈ key, Bytes.isLetter b = true) ∧ key.length ≤ longestSimpleKey ∧
    isBare key = true

instance (key : Bytes) : Decidable (IsBareKey key) := inferInstanceAs (Decidable (_ ∧ _))

theorem entry_of_isBareKey (h : IsBareKey key) (column : Nat) (value : Bytes) :
    entry column key value = key ++ 0x3A :: value := by
  obtain ⟨-, -, hlength, hbare⟩ := h
  rw [entry, if_pos hlength, ofText_of_isBare hbare, List.append_assoc]
  rfl

theorem IsBareKey.colon_notMem (h : IsBareKey key) : 0x3A ∉ key :=
  fun hmem => nomatch h.2.1 _ hmem

theorem IsBareKey.exists_first (h : IsBareKey key) :
    ∃ b t, key = b :: t ∧ b ≠ 0x20 ∧ b ≠ 0x2D := by
  obtain ⟨b, t, rfl⟩ := List.exists_cons_of_ne_nil h.1
  have hletter := h.2.1 b List.mem_cons_self
  refine ⟨b, t, rfl, ?_, ?_⟩ <;> rintro rfl <;> nomatch hletter

/-- What follows the first part of a stack. -/
def follow (column : Nat) (parts : List Bytes) (r : Bytes) : Bytes :=
  if parts.isEmpty then r else Bytes.spaces column ++ (stack column parts ++ r)

theorem stack_cons_append (column : Nat) (part : Bytes) (parts : List Bytes) (r : Bytes) :
    stack column (part :: parts) ++ r = part ++ follow column parts r := by
  rw [stack, Bytes.join]
  cases parts with
  | nil => simp [follow]
  | cons next parts => simp [follow, stack, Bytes.join]

/-- Behind a part nothing goes on to the right of the column of the parts. -/
theorem outdented_follow {parts : List Bytes} (hr : Outdented column r)
    (hfirst : ∀ part ∈ parts, ∃ b t, part = b :: t ∧ b ≠ 0x20) :
    Outdented (column + 1) (follow column parts r) := by
  cases parts with
  | nil => exact hr.mono (Nat.le_succ column)
  | cons part parts =>
    obtain ⟨b, t, rfl, hb⟩ := hfirst part List.mem_cons_self
    have hfollow : follow column ((b :: t) :: parts) r =
        Bytes.spaces column ++ (stack column ((b :: t) :: parts) ++ r) := rfl
    rw [hfollow, stack_cons_append, List.cons_append]
    exact outdented_spaces_append (Nat.lt_succ_self column) hb _

/-- A further part is told from the end of all parts. -/
theorem follow_cons_ne {part : Bytes} (hpart : part ≠ []) (hr : Outdented column r)
    (parts : List Bytes) (r' : Bytes) : follow column (part :: parts) r' ≠ r := by
  apply hr.not_append
  rw [stack_cons_append]
  exact List.append_ne_nil_of_left_ne_nil hpart _

/-- When each part is told from what follows it, so are all of them together. -/
theorem stack_append_inj {α β : Type} {text : α → Bytes} {f : α → β} {as bs : List α}
    (hne : as ≠ []) (hne' : bs ≠ [])
    (hfirst : ∀ a ∈ as, ∃ b t, text a = b :: t ∧ b ≠ 0x20)
    (hfirst' : ∀ a ∈ bs, ∃ b t, text a = b :: t ∧ b ≠ 0x20)
    (hpart : ∀ a ∈ as, ∀ b ∈ bs, ∀ r r', Outdented (column + 1) r → Outdented (column + 1) r' →
      text a ++ r = text b ++ r' → f a = f b ∧ r = r')
    (hr : Outdented column r) (hr' : Outdented column r')
    (h : stack column (as.map text) ++ r = stack column (bs.map text) ++ r') :
    as.map f = bs.map f ∧ r = r' := by
  induction as generalizing bs with
  | nil => exact absurd rfl hne
  | cons a as ih =>
    obtain ⟨b, bs, rfl⟩ := List.exists_cons_of_ne_nil hne'
    obtain ⟨-, hfirst⟩ := List.forall_mem_cons.mp hfirst
    obtain ⟨-, hfirst'⟩ := List.forall_mem_cons.mp hfirst'
    rw [List.map_cons, List.map_cons, stack_cons_append, stack_cons_append] at h
    obtain ⟨hab, hrest⟩ := hpart a List.mem_cons_self b List.mem_cons_self _ _
      (outdented_follow hr (List.forall_mem_map.mpr hfirst))
      (outdented_follow hr' (List.forall_mem_map.mpr hfirst')) h
    cases as with
    | nil =>
      cases bs with
      | nil => exact ⟨by rw [List.map_singleton, List.map_singleton, hab], hrest⟩
      | cons next bs =>
        obtain ⟨c, t, hnext, -⟩ := hfirst' next List.mem_cons_self
        exact absurd hrest.symm (follow_cons_ne (by simp [hnext]) hr _ _)
    | cons next as =>
      cases bs with
      | nil =>
        obtain ⟨c, t, hnext, -⟩ := hfirst next List.mem_cons_self
        exact absurd hrest (follow_cons_ne (by simp [hnext]) hr' _ _)
      | cons next' bs =>
        obtain ⟨hmap, hend⟩ := ih (List.cons_ne_nil _ _) (List.cons_ne_nil _ _) hfirst hfirst'
          (fun a ha b hb => hpart a (List.mem_cons_of_mem _ ha) b (List.mem_cons_of_mem _ hb))
          (List.append_cancel_left hrest)
        exact ⟨by rw [List.map_cons, hmap, hab, ← List.map_cons], hend⟩

/-- What stands behind a key tells whether the value is nested. -/
theorem behindKey_append_inj
    (h : behindKey column d s ++ r = behindKey column d' s' ++ r') :
    isNested d = isNested d' ∧ s ++ r = s' ++ r' := by
  rw [behindKey, behindKey] at h
  cases hd : isNested d <;> cases hd' : isNested d' <;> simp [hd, hd'] at h
  · exact ⟨rfl, h⟩
  · exact ⟨rfl, h⟩

theorem lt_nestedColumn (column : Nat) : column < nestedColumn column := by
  rw [nestedColumn]
  omega

/-- An entry tells its key and whether its value is nested. -/
theorem entryText_append_inj (h : IsBareKey key) (h' : IsBareKey key')
    (heq : entryText column (key, d) ++ r = entryText column (key', d') ++ r') :
    key = key' ∧ isNested d = isNested d' ∧
      write (nestedColumn column) d ++ r = write (nestedColumn column) d' ++ r' := by
  rw [entryText, entryText, entry_of_isBareKey h, entry_of_isBareKey h', List.append_assoc,
    List.append_assoc, List.cons_append, List.cons_append] at heq
  obtain ⟨hkeys, hvalues⟩ := append_cons_inj h.colon_notMem h'.colon_notMem heq
  exact ⟨hkeys, behindKey_append_inj hvalues⟩

theorem exists_first_of_entryText (h : IsBareKey key) (column : Nat) (d : Data) :
    ∃ b t, entryText column (key, d) = b :: t ∧ b ≠ 0x20 ∧ b ≠ 0x2D := by
  obtain ⟨b, t, rfl, hb⟩ := h.exists_first
  exact ⟨b, _, entry_of_isBareKey h column _, hb⟩

/-- At a column the texts of two pieces of data tell which one it is, whatever follows them. -/
def Told (column : Nat) (d d' : Data) : Prop :=
  ∀ r r', Outdented column r → Outdented column r' →
    write column d ++ r = write column d' ++ r' → d.sorted = d'.sorted ∧ r = r'

/-- The text of an item of a list that stands at a column. -/
def itemText (column : Nat) (d : Data) : Bytes := bytes "- " ++ write (column + 2) d

section Parts

variable {items items' : List Data} {entries entries' : List (Bytes × Data)}

theorem write_list (column : Nat) (hne : items ≠ []) :
    write column (.list items) = stack column (items.map (itemText column)) := by
  have hitems (items : List Data) : writeItems column items = items.map (itemText column) := by
    induction items with
    | nil => rfl
    | cons item items ih =>
      rw [writeItems, ih]
      rfl
  obtain ⟨item, items, rfl⟩ := List.exists_cons_of_ne_nil hne
  rw [write, hitems]

/-- A list starts with a dash, which no map starts with. -/
theorem write_list_ne_map (hne : items ≠ []) (hne' : entries ≠ [])
    (hkeys : ∀ e ∈ entries, IsBareKey e.1) :
    write column (.list items) ++ r ≠ write column (.map entries) ++ r' := by
  obtain ⟨item, items, rfl⟩ := List.exists_cons_of_ne_nil hne
  obtain ⟨e, es, hes⟩ := List.exists_cons_of_ne_nil (Data.sortEntries_ne_nil keyLe hne')
  have hmem := (Data.sortEntries_perm keyLe entries).mem_iff (a := e)
  obtain ⟨b, t, hentry, -, hb⟩ :=
    exists_first_of_entryText (hkeys e (hmem.mp (by simp [hes]))) column e.2
  rw [write_list column hne, write_map column hne', hes, List.map_cons, List.map_cons,
    stack_cons_append, stack_cons_append, hentry]
  intro h
  exact hb (List.cons.inj h).1.symm

theorem told_list (hne : items ≠ []) (hne' : items' ≠ [])
    (h : ∀ a ∈ items, ∀ b ∈ items', Told (column + 2) a b) :
    Told column (.list items) (.list items') := by
  intro r r' hr hr' heq
  have hpart : ∀ a ∈ items, ∀ b ∈ items', ∀ r r', Outdented (column + 1) r →
      Outdented (column + 1) r' → itemText column a ++ r = itemText column b ++ r' →
      a.sorted = b.sorted ∧ r = r' := by
    intro a ha b hb r r' hr hr' heq
    rw [itemText, itemText, List.append_assoc, List.append_assoc, List.append_right_inj] at heq
    exact h a ha b hb r r' (hr.mono (Nat.le_succ _)) (hr'.mono (Nat.le_succ _)) heq
  have hfirst (d : Data) : ∃ b t, itemText column d = b :: t ∧ b ≠ 0x20 :=
    ⟨0x2D, _, rfl, by decide⟩
  rw [write_list column hne, write_list column hne'] at heq
  obtain ⟨hsorted, hrest⟩ := stack_append_inj hne hne' (fun d _ => hfirst d) (fun d _ => hfirst d)
    hpart hr hr' heq
  exact ⟨by simp [Data.sorted, hsorted], hrest⟩

theorem told_map (hne : entries ≠ []) (hne' : entries' ≠ [])
    (hkeys : ∀ e ∈ entries, IsBareKey e.1) (hkeys' : ∀ e ∈ entries', IsBareKey e.1)
    (hnodup : (entries.map Prod.fst).Nodup)
    (h : ∀ e ∈ entries, ∀ e' ∈ entries', e.1 = e'.1 → isNested e.2 = isNested e'.2 →
      Told (nestedColumn column) e.2 e'.2) :
    Told column (.map entries) (.map entries') := by
  intro r r' hr hr' heq
  have hperm := Data.sortEntries_perm keyLe entries
  have hperm' := Data.sortEntries_perm keyLe entries'
  have hpart : ∀ e ∈ Data.sortEntries keyLe entries, ∀ e' ∈ Data.sortEntries keyLe entries',
      ∀ r r', Outdented (column + 1) r → Outdented (column + 1) r' →
      entryText column e ++ r = entryText column e' ++ r' →
      (e.1, e.2.sorted) = (e'.1, e'.2.sorted) ∧ r = r' := by
    intro e he e' he' r r' hr hr' heq
    have he := hperm.mem_iff.mp he
    have he' := hperm'.mem_iff.mp he'
    obtain ⟨hkey, hnested, hvalue⟩ := entryText_append_inj (hkeys e he) (hkeys' e' he') heq
    obtain ⟨hsorted, hrest⟩ := h e he e' he' hkey hnested r r' (hr.mono (lt_nestedColumn column))
      (hr'.mono (lt_nestedColumn column)) hvalue
    exact ⟨by rw [hkey, hsorted], hrest⟩
  have hfirst {entries : List (Bytes × Data)} (hkeys : ∀ e ∈ entries, IsBareKey e.1)
      (hperm : (Data.sortEntries keyLe entries).Perm entries) :
      ∀ e ∈ Data.sortEntries keyLe entries, ∃ b t, entryText column e = b :: t ∧ b ≠ 0x20 := by
    intro e he
    obtain ⟨b, t, hentry, hb, -⟩ :=
      exists_first_of_entryText (hkeys e (hperm.mem_iff.mp he)) column e.2
    exact ⟨b, t, hentry, hb⟩
  rw [write_map column hne, write_map column hne'] at heq
  obtain ⟨hsorted, hrest⟩ := stack_append_inj (Data.sortEntries_ne_nil keyLe hne)
    (Data.sortEntries_ne_nil keyLe hne') (hfirst hkeys hperm) (hfirst hkeys' hperm') hpart hr hr' heq
  refine ⟨?_, hrest⟩
  -- The entries are the same but for their order, and sorting makes that one order.
  have hentries : (entries'.map fun e => (e.1, e.2.sorted)).Perm
      (entries.map fun e => (e.1, e.2.sorted)) := by
    refine (hperm'.map _).symm.trans (.trans ?_ (hperm.map _))
    rw [hsorted]
  rw [Data.sorted, Data.sorted, Data.sortedEntries_eq, Data.sortedEntries_eq,
    Data.sortEntries_eq_of_perm Bytes.le_trans Bytes.le_total (fun _ _ _ _ => Bytes.le_antisymm)
      (by simpa [Function.comp_def] using hnodup) hentries]

end Parts

/-- A key of something that is counted from the start of a text. -/
def isOffset (key : Bytes) : Bool := key == bytes "start" || key == bytes "end"

/-- Data whose text can be read: no text has several lines, lists hold nested data, maps have
distinct bare keys, and numbers are integers just where an offset is expected. -/
inductive Legible : (offset : Bool) → Data → Prop
  | integer (n : Int) : Legible true (.integer n)
  | leaf {d : Data} (h : IsLeaf d) : Legible false d
  | list {items : List Data} (hne : items ≠ []) (hnested : ∀ d ∈ items, isNested d = true)
      (h : ∀ d ∈ items, Legible false d) : Legible false (.list items)
  | map {entries : List (Bytes × Data)} (hne : entries ≠ [])
      (hkeys : ∀ e ∈ entries, IsBareKey e.1) (hnodup : (entries.map Prod.fst).Nodup)
      (h : ∀ e ∈ entries, Legible (isOffset e.1) e.2) : Legible false (.map entries)

theorem IsLeaf.not_isNested (h : IsLeaf d) : isNested d = false := by
  cases h with
  | word h => cases h <;> rfl
  | text => rfl

theorem isNested_list {items : List Data} (hne : items ≠ []) : isNested (.list items) = true := by
  simpa [isNested] using hne

theorem isNested_map {entries : List (Bytes × Data)} (hne : entries ≠ []) :
    isNested (.map entries) = true := by
  simpa [isNested] using hne

theorem told_integer (m n : Int) : Told column (.integer m) (.integer n) := by
  intro r r' _ _ heq
  rw [write, write, ← List.append_cons, ← List.append_cons] at heq
  obtain ⟨htexts, hrest⟩ := append_cons_inj (line_notMem_signed m) (line_notMem_signed n) heq
  exact ⟨by rw [signed_inj htexts], hrest⟩

/-- Legible data is told from other data that is nested like it, at any depth. -/
theorem Legible.told {offset : Bool} (h : Legible offset d) (h' : Legible offset d')
    (hnested : isNested d = isNested d') : Told column d d' := by
  induction h generalizing d' column with
  | integer m =>
    cases h' with
    | integer n => exact told_integer m n
  | leaf hd =>
    rw [hd.not_isNested] at hnested
    cases h' with
    | leaf hd' =>
      intro r r' hr hr' heq
      obtain ⟨rfl, hrest⟩ := write_append_inj_of_isLeaf hd hd' (.inl ⟨rfl, hr, hr'⟩) heq
      exact ⟨rfl, hrest⟩
    | list hne => nomatch hnested.trans (isNested_list hne)
    | map hne => nomatch hnested.trans (isNested_map hne)
  | list hne hitems _ ih =>
    rw [isNested_list hne] at hnested
    cases h' with
    | leaf hd' => nomatch hnested.trans hd'.not_isNested
    | list hne' hitems' h' =>
      exact told_list hne hne' fun a ha b hb => ih a ha (h' b hb) (by rw [hitems a ha, hitems' b hb])
    | map hne' hkeys' => exact fun r r' _ _ heq => absurd heq (write_list_ne_map hne hne' hkeys')
  | map hne hkeys hnodup _ ih =>
    rw [isNested_map hne] at hnested
    cases h' with
    | leaf hd' => nomatch hnested.trans hd'.not_isNested
    | list hne' => exact fun r r' _ _ heq => absurd heq.symm (write_list_ne_map hne' hne hkeys)
    | map hne' hkeys' _ h' =>
      exact told_map hne hne' hkeys hkeys' hnodup fun e he e' he' hkey hnested =>
        ih e he (hkey ▸ h' e' he') hnested

end SchemaDoc.Yaml
