import Mathlib.Data.List.DropRight
import Mathlib.Data.List.Nodup
import SchemaDoc.Description
import SchemaDoc.Proofs.Soundness.WellFormed

/-! # What descriptions describe

The describable elements of a document are listed by their places: each has a
subject and the run of comments directly before it in its own list. A key has the
text of the last element with that key whose text is not empty, and different
subjects have different keys.
-/

namespace SchemaDoc

open Grammar (IsIdentifier)

variable {L α : Type}

/-- What a description is about. -/
inductive Subject where
  | type (name : Bytes)
  | member (type name : Bytes)
  | argument (type field name : Bytes)
deriving DecidableEq

namespace Subject

def key : Subject → Bytes
  | .type t => Description.typeKey t
  | .member t m => Description.memberKey t m
  | .argument t f a => Description.argumentKey t f a

def names : Subject → List Bytes
  | .type t => [t]
  | .member t m => [t, m]
  | .argument t f a => [t, f, a]

end Subject

namespace Element

def comment? : Element L α → Option (Comment L)
  | .comment c => some c
  | .member _ => none

/-- The comments between a place of a list and the last member before it. -/
def runBefore (elements : List (Element L α)) (i : Nat) : List (Comment L) :=
  ((elements.take i).rtakeWhile fun e => e.comment?.isSome).filterMap comment?

/-- The members of a list, each with the run of comments before its place. -/
def occurrences (elements : List (Element L α)) : List (List (Comment L) × α) :=
  elements.zipIdx.filterMap fun (e, i) => e.member?.map fun a => (runBefore elements i, a)

end Element

/-- A describable element: its subject and the comments before it. -/
structure Described (L : Type) where
  subject : Subject
  comments : List (Comment L)

/-- The comments one below the other, without the white space that all of them start with. -/
def Described.text (o : Described L) : Bytes :=
  let lines := o.comments.map Comment.content
  let common := (lines.map Description.indentation).min?.getD 0
  Bytes.join [0x0A] (lines.map (Bytes.dropCharacters common))

/-- Input values; `subject` makes a subject of a name. -/
def InputValue.listed (subject : Bytes → Subject) (inputs : List (Element L (InputValue L))) :
    List (Described L) :=
  (Element.occurrences inputs).map fun (run, i) => ⟨subject i.name.text, run⟩

def Field.listed (type : Bytes) (fields : List (Element L (Field L))) : List (Described L) :=
  (Element.occurrences fields).flatMap fun (run, f) =>
    ⟨.member type f.name.text, run⟩ ::
      InputValue.listed (.argument type f.name.text) (f.arguments.getD [])

def EnumMember.listed (type : Bytes) (members : List (Element L (EnumMember L))) :
    List (Described L) :=
  (Element.occurrences members).map fun (run, m) => ⟨.member type m.name.text, run⟩

/-- An extension is not described itself, but its fields are. -/
def Definition.listed (run : List (Comment L)) : Definition L → List (Described L)
  | .object o => ⟨.type o.name.text, run⟩ :: Field.listed o.name.text o.fields
  | .interface _ name fields => ⟨.type name.text, run⟩ :: Field.listed name.text fields
  | .union _ name _ => [⟨.type name.text, run⟩]
  | .scalar _ name => [⟨.type name.text, run⟩]
  | .enum _ name members => ⟨.type name.text, run⟩ :: EnumMember.listed name.text members
  | .input _ name fields => ⟨.type name.text, run⟩ :: InputValue.listed (.member name.text) fields
  | .extension _ o => Field.listed o.name.text o.fields

/-- The describable elements in document order. -/
def Document.listed (d : Document L) : List (Described L) :=
  (Element.occurrences d.definitions).flatMap fun (run, definition) => definition.listed run

theorem Description.least_eq (n : Nat) (ms : List Nat) :
    least n ms = ((n :: ms).min?).getD 0 := by
  rw [List.min?_cons', Option.getD_some]
  induction ms generalizing n with
  | nil => rfl
  | cons m ms ih => rw [least, ih, List.foldl_cons]

theorem Description.dedent_eq (run : List (Comment L)) (s : Subject) :
    dedent (run.map Comment.content) = (⟨s, run⟩ : Described L).text := by
  cases run with
  | nil => rfl
  | cons c run => rw [List.map_cons, dedent, least_eq]; rfl

/-- The buffer holds the lines of the comments that end the elements before a place. -/
theorem Description.describedFrom_eq (before rest : List (Element L α)) :
    describedFrom
        ⟨((before.rtakeWhile fun e => e.comment?.isSome).filterMap
          Element.comment?).map Comment.content⟩ rest =
      (rest.zipIdx before.length).filterMap fun (e, i) => e.member?.map fun a =>
        (dedent ((Element.runBefore (before ++ rest) i).map Comment.content), a) := by
  induction rest generalizing before with
  | nil => rfl
  | cons e rest ih =>
    have hsplit : before ++ e :: rest = (before ++ [e]) ++ rest := by simp
    have hih := ih (before ++ [e])
    rw [List.length_append, List.length_singleton, ← hsplit] at hih
    cases e with
    | comment c =>
      rw [List.rtakeWhile_concat_pos _ _ _ (by rfl)] at hih
      rw [List.zipIdx_cons, List.filterMap_cons_none (by rfl), ← hih]
      simp [describedFrom, Buffer.push, Element.comment?]
    | member a =>
      rw [List.rtakeWhile_concat_neg _ _ _ (by simp [Element.comment?])] at hih
      rw [List.zipIdx_cons, List.filterMap_cons_some (by rfl), ← hih]
      simp [describedFrom, Buffer.take, Buffer.empty, Element.runBefore]

theorem Description.described_eq (elements : List (Element L α)) :
    described elements = (Element.occurrences elements).map fun (run, a) =>
      (dedent (run.map Comment.content), a) := by
  have h := describedFrom_eq [] elements
  rw [List.rtakeWhile_nil] at h
  rw [described, Buffer.empty, Element.occurrences, List.map_filterMap]
  refine h.trans (List.filterMap_congr fun p _ => ?_)
  rw [Option.map_map]
  rfl

/-- The key and the text of a describable element. -/
def Described.entry (o : Described L) : Bytes × Bytes := (o.subject.key, o.text)

theorem InputValue.map_listed {subject : Bytes → Subject} {key : Bytes → Bytes}
    (hkey : ∀ n, (subject n).key = key n) (inputs : List (Element L (InputValue L))) :
    (InputValue.listed subject inputs).map Described.entry = Description.ofInputs key inputs := by
  rw [InputValue.listed, Description.ofInputs, Description.described_eq, List.map_map, List.map_map]
  apply List.map_congr_left
  rintro ⟨run, i⟩ _
  exact Prod.ext (hkey i.name.text) (Description.dedent_eq run _).symm

theorem Field.map_listed (type : Bytes) (fields : List (Element L (Field L))) :
    (Field.listed type fields).map Described.entry = Description.ofFields type fields := by
  rw [Field.listed, Description.ofFields, Description.described_eq, List.map_flatMap,
    List.flatMap_map]
  congr 1
  funext ⟨run, f⟩
  dsimp only
  rw [List.map_cons, InputValue.map_listed fun _ => rfl, Description.dedent_eq run _]
  rfl

theorem EnumMember.map_listed (type : Bytes) (members : List (Element L (EnumMember L))) :
    (EnumMember.listed type members).map Described.entry =
      Description.ofEnumMembers type members := by
  rw [EnumMember.listed, Description.ofEnumMembers, Description.described_eq, List.map_map,
    List.map_map]
  apply List.map_congr_left
  rintro ⟨run, m⟩ _
  exact Prod.ext rfl (Description.dedent_eq run _).symm

theorem Definition.map_listed (run : List (Comment L)) (definition : Definition L) :
    (definition.listed run).map Described.entry =
      Description.ofDefinition (Description.dedent (run.map Comment.content)) definition := by
  cases definition with
  | object o =>
    rw [Definition.listed, List.map_cons, Field.map_listed, Description.dedent_eq run _]
    rfl
  | interface loc name fields =>
    rw [Definition.listed, List.map_cons, Field.map_listed, Description.dedent_eq run _]
    rfl
  | union loc name members =>
    rw [Definition.listed, List.map_singleton, Description.dedent_eq run _]
    rfl
  | scalar loc name =>
    rw [Definition.listed, List.map_singleton, Description.dedent_eq run _]
    rfl
  | enum loc name members =>
    rw [Definition.listed, List.map_cons, EnumMember.map_listed, Description.dedent_eq run _]
    rfl
  | input loc name fields =>
    rw [Definition.listed, List.map_cons, InputValue.map_listed fun _ => rfl,
      Description.dedent_eq run _]
    rfl
  | extension loc o => exact Field.map_listed o.name.text o.fields

theorem Document.map_listed (d : Document L) :
    d.listed.map Described.entry = Description.listing d := by
  rw [Document.listed, Description.listing, Description.described_eq, List.map_flatMap,
    List.flatMap_map]
  congr 1
  funext ⟨run, definition⟩
  exact definition.map_listed run

namespace Descriptions

variable {ds : Descriptions} {k key text : Bytes}

@[simp] theorem lookup?_cons (d : Bytes × Bytes) (ds : Descriptions) (k : Bytes) :
    lookup? (d :: ds) k = if d.1 = k then some d.2 else ds.lookup? k := by
  rw [lookup?, lookup?]
  by_cases h : d.1 = k
  · rw [List.find?_cons_of_pos (by simpa using h), if_pos h, Option.map_some]
  · rw [List.find?_cons_of_neg (by simpa using h), if_neg h]

theorem lookup?_replace (ds : Descriptions) (key text k : Bytes) :
    lookup? (ds.map fun d => if d.1 == key then (key, text) else d) k =
      (ds.lookup? k).map fun t => if k = key then text else t := by
  induction ds with
  | nil => rfl
  | cons d ds ih =>
    rw [List.map_cons, lookup?_cons, ih, lookup?_cons]
    grind

theorem lookup?_concat (ds : Descriptions) (key text k : Bytes) :
    lookup? (ds ++ [(key, text)]) k = (ds.lookup? k).or (if key = k then some text else none) := by
  induction ds with
  | nil => exact lookup?_cons (key, text) [] k
  | cons d ds ih =>
    rw [List.cons_append, lookup?_cons, ih, lookup?_cons]
    grind

theorem lookup?_eq_none_iff : ds.lookup? k = none ↔ ∀ d ∈ ds, d.1 ≠ k := by
  simp [lookup?, List.find?_eq_none]

/-- A text that is not empty is found under its key, and nothing else changes. -/
theorem lookup?_set (ds : Descriptions) (key text k : Bytes) :
    (ds.set key text).lookup? k =
      if key = k ∧ text ≠ [] then some text else ds.lookup? k := by
  rw [set]
  by_cases htext : text = []
  · simp [htext]
  by_cases hany : ds.any fun d => d.1 == key
  · rw [if_neg (by simpa using htext), if_pos hany, lookup?_replace]
    by_cases hk : key = k
    · obtain ⟨d, hd, hkey⟩ := List.any_eq_true.mp hany
      have hsome : ds.lookup? k ≠ none := by
        rw [Ne, lookup?_eq_none_iff]
        intro h
        exact h d hd ((beq_iff_eq.mp hkey).trans hk)
      obtain ⟨t, ht⟩ := Option.ne_none_iff_exists'.mp hsome
      simp [ht, hk, htext]
    · simp [hk, Ne.symm hk]
  · rw [if_neg (by simpa using htext), if_neg hany, lookup?_concat]
    by_cases hk : key = k
    · have hnone : ds.lookup? k = none := by
        rw [lookup?_eq_none_iff]
        intro d hd hdk
        exact hany (List.any_eq_true.mpr ⟨d, hd, beq_iff_eq.mpr (hdk.trans hk.symm)⟩)
      simp [hnone, hk, htext]
    · simp [hk]

theorem nodup_set (h : (ds.map Prod.fst).Nodup) (key text : Bytes) :
    ((ds.set key text).map Prod.fst).Nodup := by
  rw [set]
  split
  · exact h
  split
  · have hkeys : (ds.map fun d => if d.1 == key then (key, text) else d).map Prod.fst =
        ds.map Prod.fst := by
      rw [List.map_map]
      apply List.map_congr_left
      intro d _
      by_cases hd : d.1 = key <;> simp [hd]
    rw [hkeys]
    exact h
  · next hany =>
    rw [List.map_append, List.map_singleton, ← List.concat_eq_append]
    apply List.Nodup.concat _ h
    intro hmem
    obtain ⟨d, hd, hkey⟩ := List.mem_map.mp hmem
    exact hany (List.any_eq_true.mpr ⟨d, hd, beq_iff_eq.mpr hkey⟩)

/-- After a run of entries a key has the last text among them that is not empty. -/
theorem lookup?_foldl_set (entries : List (Bytes × Bytes)) (k : Bytes) :
    lookup? (entries.foldl (fun ds e => Descriptions.set ds e.1 e.2) []) k =
      ((entries.filter fun e => e.1 == k && !e.2.isEmpty).getLast?).map Prod.snd := by
  induction entries using List.reverseRecOn with
  | nil => rfl
  | append_singleton entries e ih =>
    rw [List.foldl_concat, lookup?_set, ih, List.filter_append]
    by_cases h : e.1 = k ∧ e.2 ≠ []
    · rw [if_pos h, List.filter_cons_of_pos (by simpa using h), List.filter_nil,
        List.getLast?_concat, Option.map_some]
    · rw [if_neg h, List.filter_cons_of_neg (by simpa using h), List.filter_nil, List.append_nil]

theorem nodup_foldl_set (entries : List (Bytes × Bytes)) :
    ((entries.foldl (fun ds e => Descriptions.set ds e.1 e.2) []).map Prod.fst).Nodup := by
  induction entries using List.reverseRecOn with
  | nil => exact List.nodup_nil
  | append_singleton entries e ih =>
    rw [List.foldl_concat]
    exact nodup_set ih e.1 e.2

theorem lookup?_ofDocument (d : Document L) (k : Bytes) :
    (ofDocument d).lookup? k =
      ((d.listed.filter fun o => o.subject.key == k && !o.text.isEmpty).getLast?).map
        Described.text := by
  rw [ofDocument, lookup?_foldl_set, ← d.map_listed, List.filter_map, List.getLast?_map,
    Option.map_map]
  rfl

end Descriptions

/-- A byte that no name has does not occur in an identifier. -/
theorem not_mem_identifier {b : UInt8} {n : Bytes} (hb : Grammar.isNameContinue b = false)
    (hn : IsIdentifier n) : b ∉ n := by
  cases n with
  | nil => exact List.not_mem_nil
  | cons c n =>
    have hall : ∀ x ∈ c :: n, Grammar.isNameContinue x = true := by
      simpa [Grammar.Token.isNameContinue_of_isNameStart hn.1] using hn.2
    intro hmem
    rw [hall b hmem] at hb
    nomatch hb

namespace Subject

/-- All names of the subject are identifiers. -/
def IsNamed (s : Subject) : Prop := ∀ n ∈ s.names, IsIdentifier n

/-- Takes a key apart at its point and its parenthesis. -/
def ofKey (key : Bytes) : Subject :=
  match Bytes.cut 0x2E key with
  | (t, none) => .type t
  | (t, some rest) => match Bytes.cut 0x28 rest with
    | (m, none) => .member t m
    | (f, some a) => .argument t f a.dropLast

theorem cut_of_not_mem {sep : UInt8} {s : Bytes} (h : sep ∉ s) : Bytes.cut sep s = (s, none) := by
  have hdrop : s.dropWhile (· != sep) = [] := by
    rw [List.dropWhile_eq_nil_iff]
    intro b hb
    rw [bne_iff_ne]
    rintro rfl
    exact h hb
  rw [Bytes.cut, hdrop]

theorem cut_append {sep : UInt8} {s : Bytes} (h : sep ∉ s) (r : Bytes) :
    Bytes.cut sep (s ++ sep :: r) = (s, some r) := by
  have hall : ∀ b ∈ s, (b != sep) = true := by
    intro b hb
    rw [bne_iff_ne]
    rintro rfl
    exact h hb
  rw [Bytes.cut, List.dropWhile_append_of_pos hall, List.takeWhile_append_of_pos hall]
  simp

/-- No name has a point or a parenthesis, so a subject can be read back from its key. -/
theorem ofKey_key {s : Subject} (hs : s.IsNamed) : ofKey s.key = s := by
  have point {n : Bytes} (hn : IsIdentifier n) : 0x2E ∉ n := not_mem_identifier rfl hn
  have paren {n : Bytes} (hn : IsIdentifier n) : 0x28 ∉ n := not_mem_identifier rfl hn
  cases s with
  | type t =>
    have ht := hs t (by simp [names])
    rw [ofKey, key, Description.typeKey, cut_of_not_mem (point ht)]
  | member t m =>
    have ht := hs t (by simp [names])
    have hm := hs m (by simp [names])
    have hkey : (Subject.member t m).key = t ++ 0x2E :: m := List.append_assoc t _ m
    rw [ofKey, hkey, cut_append (point ht)]
    dsimp only
    rw [cut_of_not_mem (paren hm)]
  | argument t f a =>
    have ht := hs t (by simp [names])
    have hf := hs f (by simp [names])
    have hkey : (Subject.argument t f a).key = t ++ 0x2E :: (f ++ 0x28 :: (a ++ [0x29])) := by
      rw [key, Description.argumentKey, Description.memberKey]
      simp only [List.append_assoc]
      rfl
    rw [ofKey, hkey, cut_append (point ht)]
    dsimp only
    rw [cut_append (paren hf)]
    dsimp only
    rw [List.dropLast_concat]

theorem key_inj {s t : Subject} (hs : s.IsNamed) (ht : t.IsNamed) (h : s.key = t.key) : s = t := by
  rw [← ofKey_key hs, h, ofKey_key ht]

end Subject

theorem Element.mem_of_mem_occurrences {elements : List (Element L α)} {p : List (Comment L) × α}
    (h : p ∈ Element.occurrences elements) : .member p.2 ∈ elements := by
  obtain ⟨⟨e, i⟩, hmem, he⟩ := List.mem_filterMap.mp h
  obtain ⟨a, ha, rfl⟩ := Option.map_eq_some_iff.mp he
  cases e with
  | comment c => nomatch ha
  | member b =>
    rw [Element.member?, Option.some.injEq] at ha
    subst ha
    exact (List.mem_zipIdx' hmem).2 ▸ List.getElem_mem _

theorem Element.mem_walk {nodes : α → List (Node L)} {elements : List (Element L α)}
    {p : List (Comment L) × α} (hp : p ∈ Element.occurrences elements) {n : Node L}
    (hn : n ∈ nodes p.2) : n ∈ Element.walk nodes elements :=
  List.mem_flatMap.mpr ⟨_, Element.mem_of_mem_occurrences hp, hn⟩

section Named

/-- All names among the nodes are identifiers. -/
def NamesProper (nodes : List (Node L)) : Prop :=
  ∀ n : Name L, .name n ∈ nodes → IsIdentifier n.text

theorem InputValue.isNamed_of_mem_listed {subject : Bytes → Subject}
    {inputs : List (Element L (InputValue L))}
    (hnames : NamesProper (Element.walk InputValue.walk inputs))
    (hsubject : ∀ n, IsIdentifier n → (subject n).IsNamed) {o : Described L}
    (ho : o ∈ InputValue.listed subject inputs) : o.subject.IsNamed := by
  obtain ⟨p, hp, rfl⟩ := List.mem_map.mp ho
  exact hsubject _ (hnames _ (Element.mem_walk hp (by simp [InputValue.walk])))

theorem Field.isNamed_of_mem_listed {type : Bytes} {fields : List (Element L (Field L))}
    (htype : IsIdentifier type) (hnames : NamesProper (Element.walk Field.walk fields))
    {o : Described L} (ho : o ∈ Field.listed type fields) : o.subject.IsNamed := by
  obtain ⟨⟨run, f⟩, hp, ho⟩ := List.mem_flatMap.mp ho
  have hf : NamesProper f.walk := fun n hn => hnames n (Element.mem_walk hp hn)
  have hname := hf f.name (by simp [Field.walk])
  rcases List.mem_cons.mp ho with rfl | ho
  · simp [Subject.IsNamed, Subject.names, htype, hname]
  · refine InputValue.isNamed_of_mem_listed (fun n hn => hf n ?_) (fun n hn => ?_) ho
    · cases harguments : f.arguments with
      | none => simp [harguments, Element.walk] at hn
      | some arguments =>
        rw [harguments, Option.getD_some] at hn
        simp [Field.walk, harguments, hn]
    · simp [Subject.IsNamed, Subject.names, htype, hname, hn]

theorem EnumMember.isNamed_of_mem_listed {type : Bytes} {members : List (Element L (EnumMember L))}
    (htype : IsIdentifier type) (hnames : NamesProper (Element.walk EnumMember.walk members))
    {o : Described L} (ho : o ∈ EnumMember.listed type members) : o.subject.IsNamed := by
  obtain ⟨⟨run, m⟩, hp, rfl⟩ := List.mem_map.mp ho
  have hname := hnames m.name (Element.mem_walk hp (by simp [EnumMember.walk]))
  simp [Subject.IsNamed, Subject.names, htype, hname]

theorem ObjectType.isNamed_of_mem_listed {object : ObjectType L} (hnames : NamesProper object.walk)
    {o : Described L} (ho : o ∈ Field.listed object.name.text object.fields) :
    o.subject.IsNamed := by
  refine Field.isNamed_of_mem_listed (hnames _ ?_) (fun n hn => hnames n ?_) ho
  · simp [ObjectType.walk]
  · simp [ObjectType.walk, hn]

theorem Definition.isNamed_of_mem_listed {definition : Definition L} {run : List (Comment L)}
    (hnames : NamesProper definition.walk) {o : Described L} (ho : o ∈ definition.listed run) :
    o.subject.IsNamed := by
  have named {t : Name L} (ht : .name t ∈ definition.walk) : (Subject.type t.text).IsNamed := by
    simpa [Subject.IsNamed, Subject.names] using hnames t ht
  cases definition with
  | object object =>
    rcases List.mem_cons.mp ho with rfl | ho
    · exact named (by simp [Definition.walk, ObjectType.walk])
    · exact ObjectType.isNamed_of_mem_listed hnames ho
  | interface loc name fields =>
    rcases List.mem_cons.mp ho with rfl | ho
    · exact named (by simp [Definition.walk])
    · refine Field.isNamed_of_mem_listed (hnames _ ?_) (fun n hn => hnames n ?_) ho
      · simp [Definition.walk]
      · simp [Definition.walk, hn]
  | union loc name members =>
    rw [List.mem_singleton.mp ho]
    exact named (by simp [Definition.walk])
  | scalar loc name =>
    rw [List.mem_singleton.mp ho]
    exact named (by simp [Definition.walk])
  | enum loc name members =>
    rcases List.mem_cons.mp ho with rfl | ho
    · exact named (by simp [Definition.walk])
    · refine EnumMember.isNamed_of_mem_listed (hnames _ ?_) (fun n hn => hnames n ?_) ho
      · simp [Definition.walk]
      · simp [Definition.walk, hn]
  | input loc name fields =>
    rcases List.mem_cons.mp ho with rfl | ho
    · exact named (by simp [Definition.walk])
    · refine InputValue.isNamed_of_mem_listed (fun n hn => hnames n ?_) (fun n hn => ?_) ho
      · simp [Definition.walk, hn]
      · have hname := hnames name (by simp [Definition.walk])
        simp [Subject.IsNamed, Subject.names, hname, hn]
  | extension loc object =>
    refine ObjectType.isNamed_of_mem_listed (fun n hn => hnames n ?_) ho
    simp [Definition.walk, hn]

theorem Document.isNamed_of_mem_listed {d : Document L} (hnames : NamesProper d.walk)
    {o : Described L} (ho : o ∈ d.listed) : o.subject.IsNamed := by
  obtain ⟨⟨run, definition⟩, hp, ho⟩ := List.mem_flatMap.mp ho
  refine Definition.isNamed_of_mem_listed (fun n hn => hnames n ?_) ho
  have hwalk : .name n ∈ Element.walk Definition.walk d.definitions := Element.mem_walk hp hn
  simp [Document.walk, hwalk]

end Named

/-- The descriptions of a parsed document have each key once. A key has the text of the last
describable element with that key whose text is not empty, and is missing when there is none.
Elements with different subjects never share a key. -/
theorem Source.descriptions_of_parse {s : Source} {d : Document Span} (h : s.parse = .ok d) :
    ((Descriptions.ofDocument d).map Prod.fst).Nodup ∧
    (∀ k, (Descriptions.ofDocument d).lookup? k =
      ((d.listed.filter fun o => o.subject.key == k && !o.text.isEmpty).getLast?).map
        Described.text) ∧
    ∀ o ∈ d.listed, ∀ o' ∈ d.listed, o.subject.key = o'.subject.key → o.subject = o'.subject := by
  have hnames : NamesProper d.walk := fun n hn =>
    Document.admissible_of_parse (Source.parse_eq_ok_iff.mp h) (.name n) hn
  refine ⟨Descriptions.nodup_foldl_set _, Descriptions.lookup?_ofDocument d, ?_⟩
  intro o ho o' ho' hkey
  exact Subject.key_inj (Document.isNamed_of_mem_listed hnames ho)
    (Document.isNamed_of_mem_listed hnames ho') hkey

/-- A type that is described twice, a field described again in an extension, and comments in an
interface list, before an extension and at the ends of lists. -/
def describedSource : Source :=
  ⟨bytes "described", bytes <|
    "# old\nunion A = B #new\ntype A implements #i\n I \x7b #  x\n #   y\n" ++
    "b(#z\nc: D #d\n): E #t\n\x7d #ext\nextend type A \x7b # last\nb: F #e\n\x7d #end"⟩

theorem describedSource_descriptions :
    ∃ d, describedSource.parse = .ok d ∧
      Descriptions.ofDocument d =
        [(bytes "A", bytes "new"), (bytes "A.b", bytes "last"), (bytes "A.b(c)", bytes "z")] ∧
      ((Descriptions.ofDocument d).map Prod.fst).Nodup ∧
      (∀ k, (Descriptions.ofDocument d).lookup? k =
        ((d.listed.filter fun o => o.subject.key == k && !o.text.isEmpty).getLast?).map
          Described.text) ∧
      ∀ o ∈ d.listed, ∀ o' ∈ d.listed, o.subject.key = o'.subject.key → o.subject = o'.subject := by
  have hall : describedSource.parse.toOption.map Descriptions.ofDocument = some
      [(bytes "A", bytes "new"), (bytes "A.b", bytes "last"), (bytes "A.b(c)", bytes "z")] := by
    decide +kernel
  obtain ⟨d, hd, hdescriptions⟩ := Option.map_eq_some_iff.mp hall
  cases h : describedSource.parse with
  | error f =>
    rw [h] at hd
    nomatch hd
  | ok d' =>
    rw [h] at hd
    cases hd
    exact ⟨d, rfl, hdescriptions, Source.descriptions_of_parse h⟩

end SchemaDoc
