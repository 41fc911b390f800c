import SchemaDoc.Proofs.Pass.Output

/-! # Passes over targets together and apart

Documents are printed one after the other, so a pass prints what passes over the
parts of its targets print, in the same order, as long as every document can be
written. A document that cannot be written ends the printing: none of the
documents behind it is printed.
-/

namespace SchemaDoc

theorem Document.write_eq {name : Bytes} {f : OutputFormat}
    (hformat : OutputFormat.ofName name = .ok f) (d : Document Span) :
    d.write name = f.write d.tree := by
  rw [Document.write, hformat]

namespace Pass

variable {s : Settings} {c : PassContext} {ts us targets : List Bytes} {items : List Item}
  {p : Progress} {o : MapOrder} {outputOpen : Bool} {fs gs : List (Bytes × Document Span)}

namespace Printed

/-- What is printed behind a problem is lost. -/
theorem ofTexts_append (outputOpen : Bool) (texts rest : List (Except OutputProblem Bytes)) :
    (ofTexts outputOpen (texts ++ rest)).text =
      (ofTexts outputOpen texts).text ++
        if (ofTexts outputOpen texts).problem = none then (ofTexts outputOpen rest).text
        else [] := by
  induction texts with
  | nil => rfl
  | cons text texts ih =>
    cases text with
    | error p => rfl
    | ok text =>
      rw [List.cons_append, ofTexts, ofTexts]
      split
      · rfl
      · dsimp only
        rw [ih, List.append_assoc]

/-- The texts of further files show the order behind the files before them. -/
theorem fileTexts_append (f : OutputFormat) (o : MapOrder) (fs gs : List (Bytes × Document Span)) :
    fileTexts s f o (fs ++ gs) = fileTexts s f o fs ++ fileTexts s f (o.behind fs.length) gs := by
  rw [fileTexts, List.zipIdx_append, List.map_append, Nat.zero_add,
    List.zipIdx_eq_map_add (l := gs), List.map_map]
  rfl

theorem ofResults_append (o : MapOrder) (outputOpen : Bool) (fs gs : List (Bytes × Document Span)) :
    (ofResults s o outputOpen (fs ++ gs)).text =
      (ofResults s o outputOpen fs).text ++
        if (ofResults s o outputOpen fs).problem = none then
          (ofResults s (o.behind fs.length) outputOpen gs).text
        else [] := by
  cases hformat : OutputFormat.ofName s.output with
  | error q => simp only [ofResults, hformat, List.append_nil, ite_self]
  | ok f =>
    simp only [ofResults_eq hformat]
    rw [fileTexts_append, ofTexts_append]

theorem ofResults_closed : (ofResults s o false fs).text = [] := by
  cases hformat : OutputFormat.ofName s.output with
  | error q => rw [ofResults, hformat]
  | ok f =>
    rw [ofResults_eq hformat]
    exact (ofTexts_eq false _).1

theorem ofResults_problem_iff {f : OutputFormat} (hformat : OutputFormat.ofName s.output = .ok f) :
    (ofResults s o true fs).problem = none ↔
      ∀ file ∈ fs, ∃ text, file.2.write s.output = .ok text := by
  have hfile (file : Bytes × Document Span) (time : Nat) :
      Goes true (fileText s f o time file) ↔ ∃ text, file.2.write s.output = .ok text := by
    obtain ⟨text, htext, -⟩ := (o.enumerates time file.1 (.ofDocument file.2)).exists_write f
    rw [Goes, fileText, Document.write_eq hformat, htext]
    cases f.write file.2.tree with
    | error q => simp
    | ok tree => cases s.descriptions <;> simp [Except.map]
  rw [ofResults_eq hformat, (ofTexts_eq true _).2, fileTexts, List.forall_mem_map,
    ← List.zipIdx_map_fst 0 fs, List.forall_mem_map, List.zipIdx_map_fst]
  exact forall₂_congr fun file _ => hfile file.1 file.2

theorem ofResults_append_of_ok (h : ∀ file ∈ fs, ∃ text, file.2.write s.output = .ok text) :
    (ofResults s o outputOpen (fs ++ gs)).text =
      (ofResults s o outputOpen fs).text ++
        (ofResults s (o.behind fs.length) outputOpen gs).text := by
  cases outputOpen with
  | false => simp only [ofResults_closed, List.append_nil]
  | true =>
    rw [ofResults_append]
    cases hformat : OutputFormat.ofName s.output with
    | error q =>
      have hnone : (ofResults s (o.behind fs.length) true gs).text = [] := by
        rw [ofResults, hformat]
      rw [hnone, ite_self]
    | ok f => rw [if_pos ((ofResults_problem_iff hformat).mpr h)]

theorem ofResults_append_of_error (h : ∃ file ∈ fs, ∃ q, file.2.write s.output = .error q) :
    (ofResults s o outputOpen (fs ++ gs)).text = (ofResults s o outputOpen fs).text := by
  cases outputOpen with
  | false => simp only [ofResults_closed]
  | true =>
    rw [ofResults_append]
    cases hformat : OutputFormat.ofName s.output with
    | error q =>
      have hnone : (ofResults s (o.behind fs.length) true gs).text = [] := by
        rw [ofResults, hformat]
      rw [hnone, ite_self, List.append_nil]
    | ok f =>
      obtain ⟨file, hfile, q, hwrite⟩ := h
      rw [if_neg, List.append_nil]
      intro hnone
      obtain ⟨text, htext⟩ := (ofResults_problem_iff hformat).mp hnone file hfile
      rw [hwrite] at htext
      cases htext

/-- Where texts show no order of entries, another one makes no difference. -/
theorem ofResults_congr {o o' : MapOrder} (h : ShowsNoOrder s fs ∨ o = o') :
    ofResults s o outputOpen fs = ofResults s o' outputOpen fs := by
  rcases h with hshows | rfl
  · cases hformat : OutputFormat.ofName s.output with
    | error q => simp only [ofResults, hformat]
    | ok f => rw [ofResults_eq hformat, ofResults_eq hformat, hshows.fileTexts_eq hformat o o']
  · rfl

theorem ofResults_ne_nil {file : Bytes × Document Span} {text : Bytes}
    (hformat : OutputFormat.ofName s.output = .ok .json)
    (hwrite : file.2.write s.output = .ok text) :
    (ofResults s o true (file :: fs)).text ≠ [] := by
  have hne : text ≠ [] := by
    rw [Document.write_eq hformat, OutputFormat.write, Json.writeIndented] at hwrite
    cases hjson : Json.write .indented 0 file.2.tree with
    | error e =>
      rw [hjson] at hwrite
      cases hwrite
    | ok json =>
      rw [hjson] at hwrite
      cases hwrite
      exact List.append_ne_nil_of_right_ne_nil _ (List.cons_ne_nil _ _)
  rw [ofResults, hformat]
  dsimp only
  rw [List.zipIdx_cons, List.flatMap_cons, texts, ← Document.write_eq hformat, hwrite,
    List.cons_append, ofTexts]
  exact List.append_ne_nil_of_left_ne_nil hne _

end Printed

/-- No item has been parsed, and none that runs will be. -/
structure Idle (p : Progress) : Prop where
  documents : p.documents = []
  running : ∀ e ∈ p.running, e.2 = .cancelled

theorem Idle.step (hcancelled : c.cancelled = true) (h : Idle p) (e : Event) :
    Idle (p.step s c items e) := by
  cases e with
  | start i =>
    rw [Progress.step]
    split
    · exact h
    · unfold Progress.begin
      rw [hcancelled, Bool.true_or, if_pos rfl]
      exact ⟨h.documents, List.forall_mem_cons.mpr ⟨rfl, h.running⟩⟩
  | finish i =>
    rw [Progress.step]
    split
    · next item reading _ hlookup =>
      obtain rfl : reading = .cancelled :=
        h.running _ (Progress.mem_running_of_lookup hlookup)
      exact ⟨h.documents, fun e he => h.running e (List.mem_of_mem_filter he)⟩
    · exact h

theorem Idle.foldl (hcancelled : c.cancelled = true) (events : List Event) (h : Idle p) :
    Idle (events.foldl (Progress.step s c items) p) := by
  induction events generalizing p with
  | nil => exact h
  | cons e events ih => exact ih (h.step hcancelled e)

theorem Idle.results_eq (h : Idle p) : p.results items = [] := by
  rw [Progress.results, h.documents]
  simp

/-- A pass that was called off prints nothing. -/
theorem output_of_cancelled (hcancelled : c.cancelled = true) (schedule : Nat → List Event) :
    (runWith s c schedule targets).output = [] := by
  rw [runWith]
  split
  · rfl
  · have hidle : Idle (Progress.ofSchedule s c (Opening.ofTargets c targets)
        (schedule (Opening.ofTargets c targets).items.length)) :=
      Idle.foldl hcancelled _ ⟨rfl, fun _ h => absurd h List.not_mem_nil⟩
    dsimp only
    split
    · next failure _ => cases failure <;> rfl
    · rw [hidle.results_eq]
      change (Printed.ofResults s c.order c.outputOpen []).text = []
      rw [Printed.ofResults]
      cases OutputFormat.ofName s.output <;> rfl

theorem files_append (s : Settings) (c : PassContext) (ts us : List Bytes) :
    files s c (ts ++ us) = files s c ts ++ files s c us := by
  rw [files, allItems, List.flatMap_append, List.filterMap_append]
  rfl

theorem run_output_eq (s : Settings) (hcancelled : c.cancelled = false)
    (hinput : targets.count inputTarget ≤ 1)
    (hopen : ∀ t ∈ targets, ∀ f, itemsOf c t = .error f → f.code ∈ harmless)
    (hread : ∀ item ∈ allItems c targets, ∀ f, item.body c.store c.input = .error f →
      f.code ∈ harmless) :
    (run s c targets).output =
      (Printed.ofResults s c.order c.outputOpen (files s c targets)).text := by
  have hitems : (Opening.ofTargets c targets).items = allItems c targets := by
    rw [Opening.ofTargets_of_harmless hopen]
  have hevents := Event.isSchedule_sequential Nat.one_pos (allItems c targets).length
  rw [← output_eq c.order hcancelled hinput hopen hread hevents, ← hitems]
  rfl

/-- Whatever order the events of three passes take, the pass over two lists of targets prints what
the pass over the first list prints and then what the pass over the second one prints, provided that
all documents of the first list can be written. Otherwise it prints no more than the first pass. The
entries of maps may be found in another order by each pass where the texts show none; elsewhere the
first pass must find them in the order in which the joint pass does, and the second one in the order
that is behind it. -/
theorem output_append {o o₁ o₂ : MapOrder} (hinput : (ts ++ us).count inputTarget ≤ 1)
    (hopen : ∀ t ∈ ts ++ us, ∀ f, itemsOf c t = .error f → f.code ∈ harmless)
    (hread : ∀ item ∈ allItems c (ts ++ us), ∀ f, item.body c.store c.input = .error f →
      f.code ∈ harmless)
    (horder : ShowsNoOrder s (files s c (ts ++ us)) ∨ o₁ = o ∧ o₂ = o.behind (files s c ts).length)
    {limit : Nat} {events first second : List Event}
    (hevents : Event.isSchedule limit (allItems c (ts ++ us)).length events)
    (hfirst : Event.isSchedule limit (allItems c ts).length first)
    (hsecond : Event.isSchedule limit (allItems c us).length second) :
    ((∀ file ∈ files s c ts, ∃ text, file.2.write s.output = .ok text) →
      (runWith s { c with order := o } (fun _ => events) (ts ++ us)).output =
        (runWith s { c with order := o₁ } (fun _ => first) ts).output ++
          (runWith s { c with order := o₂ } (fun _ => second) us).output) ∧
    ((∃ file ∈ files s c ts, ∃ q, file.2.write s.output = .error q) →
      (runWith s { c with order := o } (fun _ => events) (ts ++ us)).output =
        (runWith s { c with order := o₁ } (fun _ => first) ts).output) := by
  by_cases hcancelled : c.cancelled = true
  · have hnothing (o : MapOrder) (schedule : Nat → List Event) (targets : List Bytes) :
        (runWith s { c with order := o } schedule targets).output = [] :=
      output_of_cancelled (c := { c with order := o }) hcancelled schedule
    simp only [hnothing, List.append_nil, implies_true, and_self]
  · have hcancelled := Bool.eq_false_iff.mpr hcancelled
    have hitems : allItems c (ts ++ us) = allItems c ts ++ allItems c us := List.flatMap_append
    rw [List.count_append] at hinput
    have hboth := output_eq (s := s) o hcancelled (by rwa [List.count_append]) hopen hread hevents
    have hone := output_eq (s := s) o₁ hcancelled (by omega)
      (fun t ht => hopen t (List.mem_append_left us ht))
      (fun item hitem => hread item (hitems ▸ List.mem_append_left _ hitem)) hfirst
    have htwo := output_eq (s := s) o₂ hcancelled (by omega)
      (fun t ht => hopen t (List.mem_append_right ts ht))
      (fun item hitem => hread item (hitems ▸ List.mem_append_right _ hitem)) hsecond
    rw [files_append] at horder hboth
    have hone' : Printed.ofResults s o₁ c.outputOpen (files s c ts) =
        Printed.ofResults s o c.outputOpen (files s c ts) :=
      Printed.ofResults_congr (horder.imp (·.mono (List.subset_append_left _ _)) And.left)
    have htwo' : Printed.ofResults s o₂ c.outputOpen (files s c us) =
        Printed.ofResults s (o.behind (files s c ts).length) c.outputOpen (files s c us) :=
      Printed.ofResults_congr (horder.imp (·.mono (List.subset_append_right _ _)) And.right)
    rw [hboth, hone, htwo, hone', htwo']
    exact ⟨Printed.ofResults_append_of_ok, Printed.ofResults_append_of_error⟩

/-- A file with a number that is infinite as a binary number, and one without numbers. -/
def infiniteContext : PassContext where
  store :=
    (Table.ofList []
      [(bytes "/a.graphql", bytes "input A \x7b x: Float = 1e400 \x7d"),
        (bytes "/b.graphql", bytes "scalar B")]).memory
  input := .text []
  outputOpen := true
  cancelled := false
  log := .off
  time := []
  elapsed := .null

def plainSettings : Settings := { Settings.initial with concurrency := 1 }

def infiniteTargets : List Bytes := [bytes "a.graphql"]

def finiteTargets : List Bytes := [bytes "b.graphql"]

theorem exists_write_finite :
    ∃ file text, files plainSettings infiniteContext finiteTargets = [file] ∧
      file.2.write plainSettings.output = .ok text := by
  have hwritten : (files plainSettings infiniteContext finiteTargets).map
      (fun file => (file.2.write plainSettings.output).isOk) = [true] := by decide +kernel
  obtain ⟨file, hfiles, hwrite⟩ := List.map_eq_singleton_iff.mp hwritten
  cases htext : file.2.write plainSettings.output with
  | error q =>
    rw [htext] at hwrite
    nomatch hwrite
  | ok text => exact ⟨file, text, hfiles, htext⟩

theorem exists_write_infinite :
    ∃ file q, files plainSettings infiniteContext infiniteTargets = [file] ∧
      file.2.write plainSettings.output = .error q := by
  have hwritten : (files plainSettings infiniteContext infiniteTargets).map
      (fun file => (file.2.write plainSettings.output).isOk) = [false] := by decide +kernel
  obtain ⟨file, hfiles, hwrite⟩ := List.map_eq_singleton_iff.mp hwritten
  cases htext : file.2.write plainSettings.output with
  | error q => exact ⟨file, q, hfiles, htext⟩
  | ok text =>
    rw [htext] at hwrite
    nomatch hwrite

def turnedOrder : MapOrder :=
  ⟨fun _ path ds => (listed path ds).reverse, fun _ _ ds => ⟨ds, .refl _, List.reverse_perm _⟩⟩

/-- The file that cannot be written does no harm behind the other one, but in front it hides it. -/
theorem infinite_output_append :
    (runWith plainSettings infiniteContext (fun _ => Event.sequential 2)
        (finiteTargets ++ infiniteTargets)).output =
      (runWith plainSettings { infiniteContext with order := turnedOrder }
          (fun _ => Event.sequential 1) finiteTargets).output ++
        (runWith plainSettings { infiniteContext with order := turnedOrder }
          (fun _ => Event.sequential 1) infiniteTargets).output ∧
    (runWith plainSettings infiniteContext (fun _ => Event.sequential 2)
        (infiniteTargets ++ finiteTargets)).output =
      (runWith plainSettings { infiniteContext with order := turnedOrder }
        (fun _ => Event.sequential 1) infiniteTargets).output := by
  have hfinite : Event.isSchedule 1 (allItems infiniteContext finiteTargets).length
      (Event.sequential 1) := by decide +kernel
  have hinfinite : Event.isSchedule 1 (allItems infiniteContext infiniteTargets).length
      (Event.sequential 1) := by decide +kernel
  have hshows (fs : List (Bytes × Document Span)) : ShowsNoOrder plainSettings fs := nofun
  constructor
  · obtain ⟨file, text, hfile, hwrite⟩ := exists_write_finite
    refine (@output_append plainSettings infiniteContext finiteTargets infiniteTargets .listed
      turnedOrder turnedOrder (by decide) (openingFaults_harmless_iff.mp (by decide +kernel))
      (items_harmless_iff.mp (by decide +kernel)) (.inl (hshows _)) _ _ _ _ (by decide +kernel)
      hfinite hinfinite).1 ?_
    rw [hfile]
    exact List.forall_mem_singleton.mpr ⟨text, hwrite⟩
  · obtain ⟨file, q, hfile, hwrite⟩ := exists_write_infinite
    exact (@output_append plainSettings infiniteContext infiniteTargets finiteTargets .listed
      turnedOrder turnedOrder (by decide) (openingFaults_harmless_iff.mp (by decide +kernel))
      (items_harmless_iff.mp (by decide +kernel)) (.inl (hshows _)) _ _ _ _ (by decide +kernel)
      hinfinite hfinite).2 ⟨file, hfile ▸ List.mem_singleton_self _, q, hwrite⟩

/-- A document that can be written as JSON is not printed behind one that cannot, although it is
printed alone. -/
theorem infinite_output_ne :
    Settings.load (fun _ => none) 1 [] = .ok (plainSettings, []) ∧
    inputTarget ∉ infiniteTargets ++ finiteTargets ∧
    (∀ t ∈ infiniteTargets ++ finiteTargets, ∀ f, itemsOf infiniteContext t = .error f →
      f.code ∈ harmless) ∧
    (∀ item ∈ allItems infiniteContext (infiniteTargets ++ finiteTargets), ∀ f,
      item.body infiniteContext.store infiniteContext.input = .error f → f.code ∈ harmless) ∧
    (run plainSettings infiniteContext (infiniteTargets ++ finiteTargets)).output = [] ∧
    (run plainSettings infiniteContext finiteTargets).output ≠ [] ∧
    (run plainSettings infiniteContext (infiniteTargets ++ finiteTargets)).output ≠
      (run plainSettings infiniteContext infiniteTargets).output ++
        (run plainSettings infiniteContext finiteTargets).output := by
  have hnothing : (run plainSettings infiniteContext (infiniteTargets ++ finiteTargets)).output =
      [] := by decide +kernel
  have halone : (run plainSettings infiniteContext finiteTargets).output ≠ [] := by
    obtain ⟨file, text, hfile, hwrite⟩ := exists_write_finite
    have hopen : ∀ t ∈ finiteTargets, ∀ f, itemsOf infiniteContext t = .error f →
        f.code ∈ harmless := openingFaults_harmless_iff.mp (by decide +kernel)
    have houtput := run_output_eq plainSettings rfl (by decide) hopen
      (items_harmless_iff.mp (by decide +kernel))
    rw [houtput, hfile]
    exact Printed.ofResults_ne_nil (by decide +kernel) hwrite
  refine ⟨by decide +kernel, by decide, openingFaults_harmless_iff.mp (by decide +kernel),
    items_harmless_iff.mp (by decide +kernel), hnothing, halone, ?_⟩
  rw [hnothing]
  intro heq
  exact halone (List.append_eq_nil_iff.mp heq.symm).2

end Pass

end SchemaDoc
