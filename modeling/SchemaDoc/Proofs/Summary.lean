import Mathlib.Algebra.BigOperators.Group.List.Basic
import Mathlib.Algebra.Ring.Nat
import SchemaDoc.Proofs.Composition.Document
import SchemaDoc.Proofs.Syntax.Address
import SchemaDoc.Summary

/-! # What summaries count

A summary is made from the lists of the definitions. What it counts is what a walk
over the whole tree comes to, since fields, input values and interfaces stand in
those lists only and not in types or values. A summary does not depend on places,
so two texts one behind the other count what they count apart.
-/

namespace SchemaDoc

open Grammar

variable {L M α β : Type}

namespace Element

@[simp] theorem members_nil : members ([] : List (Element L α)) = [] := rfl

@[simp] theorem members_comment (c : Comment L) (es : List (Element L α)) :
    members (.comment c :: es) = members es := rfl

@[simp] theorem members_member (a : α) (es : List (Element L α)) :
    members (.member a :: es) = a :: members es := rfl

theorem members_append (es es' : List (Element L α)) :
    members (es ++ es') = members es ++ members es' := List.filterMap_append

@[simp] theorem members_map (g : L → M) (f : α → β) (es : List (Element L α)) :
    members (es.map (Element.map g f)) = (members es).map f := by
  induction es with
  | nil => rfl
  | cons e es ih => cases e <;> simp [Element.map, ih]

end Element

namespace Definition

/-- The object that a definition defines or extends. -/
def objects : Definition L → List (ObjectType L)
  | .object o => [o]
  | .extension _ o => [o]
  | _ => []

def fields : Definition L → List (Field L)
  | .object o => Element.members o.fields
  | .extension _ o => Element.members o.fields
  | .interface _ _ fields => Element.members fields
  | _ => []

/-- The fields of an input object. -/
def inputs : Definition L → List (InputValue L)
  | .input _ _ fields => Element.members fields
  | _ => []

end Definition

namespace Summary

theorem ofDefinition_eq (t : Definition L) :
    ofDefinition t = ⟨1, t.fields.length + t.inputs.length, (t.fields.flatMap Field.inputs).length,
      (t.objects.map fun o => (Element.members o.interfaces).length).sum⟩ := by
  cases t <;> simp [ofDefinition, ofObject, ofFields, Definition.fields, Definition.inputs,
    Definition.objects]

theorem add_assoc (a b c : Summary) : (a.add b).add c = a.add (b.add c) := by
  simp only [add, Nat.add_assoc]

theorem foldl_add (a b : Summary) (ts : List (Definition L)) :
    ts.foldl (fun s t => s.add (ofDefinition t)) (a.add b) =
      a.add (ts.foldl (fun s t => s.add (ofDefinition t)) b) := by
  induction ts generalizing b with
  | nil => rfl
  | cons t ts ih => rw [List.foldl_cons, add_assoc, ih, List.foldl_cons]

/-- A quantity of summaries that is added up is added up over the definitions. -/
theorem ofDocument_sum {f : Summary → Nat} (hzero : f ⟨0, 0, 0, 0⟩ = 0)
    (hadd : ∀ a b, f (a.add b) = f a + f b) (d : Document L) :
    f (ofDocument d) =
      ((Element.members d.definitions).map fun t => f (ofDefinition t)).sum := by
  have hfold (s : Summary) (ts : List (Definition L)) :
      f (ts.foldl (fun s t => s.add (ofDefinition t)) s) =
        f s + (ts.map fun t => f (ofDefinition t)).sum := by
    induction ts generalizing s with
    | nil => rfl
    | cons t ts ih => rw [List.foldl_cons, ih, hadd, List.map_cons, List.sum_cons, Nat.add_assoc]
  rw [ofDocument, hfold, hzero, Nat.zero_add]

theorem ofDocument_append {a b c : Document L}
    (h : c.definitions = a.definitions ++ b.definitions) :
    ofDocument c = (ofDocument a).add (ofDocument b) := by
  rw [ofDocument, h, Element.members_append, List.foldl_append]
  exact foldl_add (ofDocument a) ⟨0, 0, 0, 0⟩ (Element.members b.definitions)

@[simp] theorem inputs_map (g : L → M) (f : Field L) :
    (f.map g).inputs = f.inputs.map (InputValue.map g) := by
  cases h : f.arguments <;> simp [Field.inputs, Field.map, h]

theorem ofDefinition_map (g : L → M) (t : Definition L) :
    ofDefinition (t.map g) = ofDefinition t := by
  cases t <;>
    simp [ofDefinition, ofObject, ofFields, Definition.map, ObjectType.map, List.flatMap_map,
      List.length_flatMap]

theorem ofDocument_map (g : L → M) (d : Document L) : ofDocument (d.map g) = ofDocument d := by
  rw [ofDocument, Document.map, Element.members_map, List.foldl_map]
  simp only [ofDefinition_map]
  rfl

end Summary

namespace Node

/-- A number for the objects, the fields and the input values of a tree, zero for other nodes. -/
def weight (onObject : ObjectType L → Nat) (onField : Field L → Nat)
    (onInput : InputValue L → Nat) : Node L → Nat
  | .definition (.object o) => onObject o
  | .field f => onField f
  | .inputValue i => onInput i
  | _ => 0

/-- Fields and input values are told by their kinds. -/
theorem weight_of_kind (b c : Node L → Nat) (n : Node L) :
    weight (fun _ => 0) (fun f => b (.field f)) (fun i => c (.inputValue i)) n =
      (if n.kind = .fieldDefinition then b n else 0) +
        if n.kind = .inputValueDefinition then c n else 0 := by
  cases n with
  | type t => cases t <;> rfl
  | value v => cases v <;> rfl
  | definition t => cases t <;> rfl
  | field f => simp [weight, kind]
  | inputValue i => simp [weight, kind]
  | _ => rfl

/-- Whether there may be objects, fields or input values at a node or beneath it. -/
def declares : Node L → Bool
  | .document _ => true
  | .definition _ => true
  | .field _ => true
  | .inputValue _ => true
  | _ => false

theorem declares_element {ofMember : α → Node L} (h : ∀ a, (ofMember a).declares = false)
    (e : Element L α) : (e.node ofMember).declares = false := by
  cases e with
  | comment c => rfl
  | member a => exact h a

theorem declares_of_mem_children {n : Node L} (h : n.declares = false) :
    ∀ m ∈ n.children, m.declares = false := by
  cases n with
  | document d => nomatch h
  | definition t => nomatch h
  | field f => nomatch h
  | inputValue i => nomatch h
  | comment c => nofun
  | name n => nofun
  | type t =>
    cases t <;> simp [children, parts, TypeRef.parts, declares, List.filterMap_cons]
  | enumMember e => simp [children, parts, declares]
  | value v =>
    cases v with
    | list loc es =>
      have helement (e : Element L (Value L)) : (e.node .value).declares = false :=
        declares_element (fun _ => rfl) e
      simp [children, parts, Value.parts, List.filterMap_cons, helement]
    | object loc es =>
      have helement (e : Element L (ObjectField L)) : (e.node .objectField).declares = false :=
        declares_element (fun _ => rfl) e
      simp [children, parts, Value.parts, List.filterMap_cons, helement]
    | _ => simp [children, parts, Value.parts, List.filterMap_cons, declares]
  | objectField f =>
    cases f
    simp [children, parts, ObjectField.parts, declares, List.filterMap_cons]

/-- The weights of the nodes and of all nodes beneath them, added up. -/
def total (w : Node L → Nat) (nodes : List (Node L)) : Nat := ((nodes.flatMap walk).map w).sum

variable {w : Node L → Nat}

@[simp] theorem total_nil : total w [] = 0 := rfl

theorem total_cons (n : Node L) (nodes : List (Node L)) :
    total w (n :: nodes) = total w [n] + total w nodes := by
  simp [total]

@[simp] theorem total_append (nodes others : List (Node L)) :
    total w (nodes ++ others) = total w nodes + total w others := by
  simp [total]

theorem total_singleton (n : Node L) : total w [n] = total w n.children + w n := by
  simp [total, walk_eq n]

theorem sum_walk (n : Node L) : (n.walk.map w).sum = total w [n] := by
  simp [total]

theorem total_eq_zero {nodes : List (Node L)} (h : ∀ n ∈ nodes, total w [n] = 0) :
    total w nodes = 0 := by
  induction nodes with
  | nil => rfl
  | cons n nodes ih =>
    obtain ⟨hn, hnodes⟩ := List.forall_mem_cons.mp h
    rw [total_cons, hn, ih hnodes]

variable (a : ObjectType L → Nat) (b : Field L → Nat) (c : InputValue L → Nat)

theorem total_of_not_declares {n : Node L} (h : n.declares = false) :
    total (weight a b c) [n] = 0 := by
  induction n using children_induction with
  | h n ih =>
    have hweight : weight a b c n = 0 := by
      cases n <;> first | rfl | nomatch h
    rw [total_singleton, hweight,
      total_eq_zero fun m hm => ih m hm (declares_of_mem_children h m hm)]

theorem total_inner {nodes : List (Node L)} (h : ∀ n ∈ nodes, n.declares = false) :
    total (weight a b c) nodes = 0 :=
  total_eq_zero fun n hn => total_of_not_declares a b c (h n hn)

@[simp] theorem total_name_cons (n : Name L) (nodes : List (Node L)) :
    total (weight a b c) (.name n :: nodes) = total (weight a b c) nodes := by
  rw [total_cons, total_of_not_declares a b c rfl, Nat.zero_add]

@[simp] theorem total_type_cons (t : TypeRef L) (nodes : List (Node L)) :
    total (weight a b c) (.type t :: nodes) = total (weight a b c) nodes := by
  rw [total_cons, total_of_not_declares a b c rfl, Nat.zero_add]

/-- The comments of a list have no weight. -/
theorem total_elements (ofMember : α → Node L) (es : List (Element L α)) :
    total (weight a b c) (es.map (Element.node ofMember)) =
      ((Element.members es).map fun x => total (weight a b c) [ofMember x]).sum := by
  induction es with
  | nil => rfl
  | cons e es ih =>
    rw [List.map_cons, total_cons, ih]
    cases e with
    | comment d =>
      rw [Element.node, total_of_not_declares a b c rfl, Nat.zero_add, Element.members_comment]
    | member x => rw [Element.node, Element.members_member, List.map_cons, List.sum_cons]

theorem total_elements_inner {ofMember : α → Node L} (h : ∀ x, (ofMember x).declares = false)
    (es : List (Element L α)) :
    total (weight a b c) (es.map (Element.node ofMember)) = 0 := by
  refine total_inner a b c fun n hn => ?_
  obtain ⟨e, -, rfl⟩ := List.mem_map.mp hn
  exact declares_element h e

theorem total_inputValue (i : InputValue L) : total (weight a b c) [.inputValue i] = c i := by
  have hchildren : total (weight a b c) (Node.inputValue i).children = 0 := by
    apply total_inner
    cases h : i.default <;>
      simp [children, parts, InputValue.parts, Value.defaultParts, h, declares, List.filterMap_cons]
  rw [total_singleton, hchildren, Nat.zero_add, weight]

theorem total_inputs (es : List (Element L (InputValue L))) :
    total (weight a b c) (es.map (Element.node .inputValue)) = ((Element.members es).map c).sum := by
  rw [total_elements]
  simp only [total_inputValue]

theorem total_field (f : Field L) :
    total (weight a b c) [.field f] = (f.inputs.map c).sum + b f := by
  rw [total_singleton]
  cases h : f.arguments with
  | none =>
    simp [children, parts, Field.parts, Field.argumentParts, Field.inputs, h, List.filterMap_cons,
      weight]
  | some arguments =>
    simp [children, parts, Field.parts, Field.argumentParts, Field.inputs, h, List.filterMap_cons,
      total_inputs, weight]

theorem total_fields (es : List (Element L (Field L))) :
    total (weight a b c) (es.map (Element.node .field)) =
      ((Element.members es).map fun f => (f.inputs.map c).sum + b f).sum := by
  rw [total_elements]
  simp only [total_field]

/-- Names and interfaces of an object have no weight. -/
theorem total_object (o : ObjectType L) :
    total (weight a b c) [.definition (.object o)] =
      ((Element.members o.fields).map fun f => (f.inputs.map c).sum + b f).sum + a o := by
  have hinterfaces : total (weight a b c)
      (o.interfaces.map (Element.node fun t => .type (.named t))) = 0 :=
    total_elements_inner a b c (fun _ => rfl) o.interfaces
  rw [total_singleton]
  simp [children, parts, Definition.parts, ObjectType.parts, List.filterMap_cons, hinterfaces,
    total_fields, weight]

theorem total_definition (t : Definition L) :
    total (weight a b c) [.definition t] =
      (t.fields.map fun f => (f.inputs.map c).sum + b f).sum + (t.inputs.map c).sum +
        (t.objects.map a).sum := by
  cases t with
  | object o => simp [total_object, Definition.fields, Definition.inputs, Definition.objects]
  | extension loc o =>
    rw [total_singleton]
    simp [children, parts, Definition.parts, List.filterMap_cons, total_object, Definition.fields,
      Definition.inputs, Definition.objects, weight]
  | interface loc name fields =>
    rw [total_singleton]
    simp [children, parts, Definition.parts, List.filterMap_cons, total_fields, Definition.fields,
      Definition.inputs, Definition.objects, weight]
  | union loc name members =>
    have hmembers : total (weight a b c) (members.map fun t => .type (.named t)) = 0 :=
      total_inner a b c (by simp [declares])
    rw [total_singleton]
    simp [children, parts, Definition.parts, List.filterMap_cons, hmembers, Definition.fields,
      Definition.inputs, Definition.objects, weight]
  | scalar loc name =>
    rw [total_singleton]
    simp [children, parts, Definition.parts, List.filterMap_cons, Definition.fields,
      Definition.inputs, Definition.objects, weight]
  | enum loc name members =>
    have hmembers : total (weight a b c) (members.map (Element.node .enumMember)) = 0 :=
      total_elements_inner a b c (fun _ => rfl) members
    rw [total_singleton]
    simp [children, parts, Definition.parts, List.filterMap_cons, hmembers, Definition.fields,
      Definition.inputs, Definition.objects, weight]
  | input loc name fields =>
    rw [total_singleton]
    simp [children, parts, Definition.parts, List.filterMap_cons, total_inputs, Definition.fields,
      Definition.inputs, Definition.objects, weight]

theorem total_document (d : Document L) :
    total (weight a b c) [.document d] = ((Element.members d.definitions).map fun t =>
      (t.fields.map fun f => (f.inputs.map c).sum + b f).sum + (t.inputs.map c).sum +
        (t.objects.map a).sum).sum := by
  rw [total_singleton]
  simp only [children, parts, Element.filterMap_parts, total_elements, total_definition, weight,
    Nat.add_zero]

theorem sum_weight_walk (d : Document L) :
    (d.walk.map (weight a b c)).sum = ((Element.members d.definitions).map fun t =>
      (t.fields.map fun f => (f.inputs.map c).sum + b f).sum + (t.inputs.map c).sum +
        (t.objects.map a).sum).sum := by
  rw [← total_document, ← sum_walk]
  rfl

end Node

/-- The nodes in the interface list of an object, with the comments there. -/
def Node.interfaceNodes : Node L → List (Node L)
  | .definition (.object o) => o.interfaces.map (Element.node fun t => .type (.named t))
  | _ => []

theorem Element.countP_node {p : Node L → Bool} {ofMember : α → Node L}
    (hcomment : ∀ c, p (.comment c) = false) (hmember : ∀ x, p (ofMember x) = true)
    (es : List (Element L α)) :
    (es.map (Element.node ofMember)).countP p = (members es).length := by
  induction es with
  | nil => rfl
  | cons e es ih => cases e <;> simp [Element.node, hcomment, hmember, ih]

namespace Summary

/-- A summary that counts what is in the tree of a document. -/
structure Counts (s : Summary) (d : Document L) : Prop where
  definitions : s.definitions =
    (d.definitions.map (Element.node .definition)).countP fun n => n.kind ≠ .comment
  members : s.fields + s.arguments =
    d.walk.countP fun n => n.kind = .fieldDefinition ∨ n.kind = .inputValueDefinition
  arguments : s.arguments =
    ((d.walk.filter fun n => n.kind = .fieldDefinition).flatMap Node.walk).countP
      fun n => n.kind = .inputValueDefinition
  interfaces : s.interfaces =
    (d.walk.flatMap Node.interfaceNodes).countP fun n => n.kind = .namedType

/-- A sum over the nodes of a kind is a sum of weights. -/
theorem sum_filter_eq {p : Node L → Bool} {g : Node L → Nat} {a : ObjectType L → Nat}
    {b : Field L → Nat} {c : InputValue L → Nat}
    (h : ∀ n, Node.weight a b c n = if p n then g n else 0) (nodes : List (Node L)) :
    ((nodes.filter p).map g).sum = (nodes.map (Node.weight a b c)).sum := by
  induction nodes with
  | nil => rfl
  | cons n nodes ih =>
    rw [List.map_cons, List.sum_cons, h, ← ih]
    by_cases hp : p n <;> simp [hp]

theorem countP_eq_sum {p : Node L → Bool} {a : ObjectType L → Nat} {b : Field L → Nat}
    {c : InputValue L → Nat} (h : ∀ n, Node.weight a b c n = if p n then 1 else 0)
    (nodes : List (Node L)) : nodes.countP p = (nodes.map (Node.weight a b c)).sum := by
  rw [← sum_filter_eq h, List.countP_eq_length_filter, List.map_const',
    List.sum_replicate_nat, Nat.mul_one]

theorem countP_walk_field (f : Field L) :
    (Node.field f).walk.countP (fun n => n.kind = .inputValueDefinition) = f.inputs.length := by
  have hweight (n : Node L) : Node.weight (fun _ => 0) (fun _ => 0) (fun _ => 1) n =
      if decide (n.kind = .inputValueDefinition) then 1 else 0 := by
    rw [Node.weight_of_kind (fun _ => 0) (fun _ => 1) n]
    cases n.kind <;> rfl
  rw [countP_eq_sum hweight, Node.sum_walk, Node.total_field, List.map_const',
    List.sum_replicate_nat, Nat.mul_one, Nat.add_zero]

theorem counts_ofDocument (d : Document L) : (ofDocument d).Counts d where
  definitions := by
    have hkind (t : Definition L) : decide ((Node.definition t).kind ≠ .comment) = true := by
      cases t <;> rfl
    rw [ofDocument_sum (f := Summary.definitions) rfl fun _ _ => rfl,
      Element.countP_node (fun _ => rfl) hkind]
    simp only [ofDefinition_eq, List.map_const', List.sum_replicate_nat, Nat.mul_one]
  members := by
    have hweight (n : Node L) : Node.weight (fun _ => 0) (fun _ => 1) (fun _ => 1) n =
        if decide (n.kind = .fieldDefinition ∨ n.kind = .inputValueDefinition) then 1 else 0 := by
      rw [Node.weight_of_kind (fun _ => 1) (fun _ => 1) n]
      cases n.kind <;> rfl
    have hsum := ofDocument_sum (f := fun s => s.fields + s.arguments) rfl
      (fun s s' => by simp only [add]; omega) d
    rw [hsum, countP_eq_sum hweight, Node.sum_weight_walk]
    congr 2
    funext t
    simp only [ofDefinition_eq, List.length_flatMap, List.sum_map_add, List.map_const',
      List.sum_replicate_nat, Nat.mul_one, Nat.mul_zero]
    omega
  arguments := by
    -- The nodes beneath a field are counted together with the field.
    have hweight (n : Node L) : Node.weight (fun _ => 0) (fun f => f.inputs.length) (fun _ => 0) n =
        if decide (n.kind = .fieldDefinition) then
          n.walk.countP fun m => m.kind = .inputValueDefinition else 0 := by
      simp only [← countP_walk_field]
      rw [Node.weight_of_kind (fun m => m.walk.countP _) (fun _ => 0) n]
      simp
    rw [ofDocument_sum (f := Summary.arguments) rfl fun _ _ => rfl, List.countP_flatMap]
    refine Eq.trans ?_ (sum_filter_eq hweight d.walk).symm
    rw [Node.sum_weight_walk]
    congr 2
    funext t
    simp only [ofDefinition_eq, List.length_flatMap, List.sum_map_zero, Nat.zero_add, Nat.add_zero]
  interfaces := by
    have hweight (n : Node L) : (Node.interfaceNodes n).countP (fun m => m.kind = .namedType) =
        Node.weight (fun o => (Element.members o.interfaces).length) (fun _ => 0) (fun _ => 0) n := by
      cases n with
      | definition t =>
        cases t with
        | object o => exact Element.countP_node (fun _ => rfl) (fun _ => rfl) o.interfaces
        | _ => rfl
      | _ => rfl
    rw [ofDocument_sum (f := Summary.interfaces) rfl fun _ _ => rfl, List.countP_flatMap]
    simp only [Function.comp_def, hweight]
    rw [Node.sum_weight_walk]
    congr 2
    funext t
    simp only [ofDefinition_eq, List.sum_map_zero, Nat.zero_add, Nat.add_zero]

end Summary

/-- What a summary of a parsed document counts is what there is in its tree. Texts that parse make
a text that parses, and what it counts is what they count, added up. -/
theorem Source.summary_of_parse {s : Source} {d : Document Span} (h : s.parse = .ok d) :
    (Summary.ofDocument d).Counts d ∧
      ∀ (t : Source) (e : Document Span) (name : Bytes), t.parse = .ok e →
        ∃ b, (Source.mk name (s.body ++ 0x0A :: t.body)).parse = .ok b ∧
          Summary.ofDocument b = (Summary.ofDocument d).add (Summary.ofDocument e) := by
  refine ⟨Summary.counts_ofDocument d, fun t e name ht => ?_⟩
  have hfirst := Source.parse_eq_ok_iff.mp h
  have hsecond := Source.parse_eq_ok_iff.mp ht
  rcases Document.parse_behind hfirst (Document.endsBefore_of_parse d hsecond) with
    ⟨a, b, ha, hb, hdefinitions⟩ | ⟨offset, cause, herror, -⟩
  · rw [hsecond] at ha
    obtain rfl := Except.ok.inj ha
    refine ⟨b, Source.parse_eq_ok_iff.mpr hb, ?_⟩
    rw [Summary.ofDocument_append hdefinitions, Summary.ofDocument_map]
  · rw [hsecond] at herror
    nomatch herror

/-- Definitions of all kinds with members that are counted, and comments between them. -/
def countedSource : Source :=
  ⟨bytes "counted", bytes <|
    "# comment\ninterface Node \x7b id: ID! \x7d\ntype User implements Node, #b\n Named \x7b\n" ++
    "# field comment\n id: ID! friends(first: Int, after: String): [User] \x7d\n" ++
    "input Filter \x7b name: String limit: Int \x7d\n" ++
    "extend type User \x7b age(unit: String): Int \x7d\nscalar Date"⟩

theorem countedSource_summary :
    ∃ d e, countedSource.parse = .ok d ∧ sampleSource.parse = .ok e ∧
      Summary.ofDocument d = ⟨5, 6, 3, 2⟩ ∧ (Summary.ofDocument d).Counts d ∧
      ∃ b, (Source.mk (bytes "both") (countedSource.body ++ 0x0A :: sampleSource.body)).parse =
          .ok b ∧
        Summary.ofDocument b = (Summary.ofDocument d).add (Summary.ofDocument e) := by
  have hall : countedSource.parse.toOption.map Summary.ofDocument = some ⟨5, 6, 3, 2⟩ := by
    decide +kernel
  obtain ⟨e, he⟩ : ∃ e, sampleSource.parse = .ok e := ⟨_, rfl⟩
  obtain ⟨d, hd, hsummary⟩ := Option.map_eq_some_iff.mp hall
  cases h : countedSource.parse with
  | error f =>
    rw [h] at hd
    nomatch hd
  | ok d' =>
    rw [h] at hd
    cases hd
    obtain ⟨hcounts, hboth⟩ := Source.summary_of_parse h
    exact ⟨d, e, rfl, he, hsummary, hcounts, hboth sampleSource e (bytes "both") he⟩

end SchemaDoc
