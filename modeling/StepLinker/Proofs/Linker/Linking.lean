import StepLinker.Linker

/-!
# Linking a file

A linker goes through a file once, changes its steps where they stand and adds up what it has to
report. Nothing is lost on the way, and no step notices another: what comes of it is the file with
each step bound by itself (`TestFile.mapSteps`), and the sum of what binding each of them by itself
reports (`LinkResult.Sums`). `Visits.file` takes the pass apart into these two, and `Sums.foldl` goes
through the steps that it records.
-/

namespace StepLinker

/-! ## Changing steps in place -/

def Feature.mapSteps (change : Step → Step) (f : Feature) : Feature :=
  { f with
    background := f.background.map fun b => { b with steps := b.steps.map change }
    scenarios := f.scenarios.map fun s => { s with steps := s.steps.map change } }

theorem Feature.mapSteps_congr {change change' : Step → Step} {f : Feature}
    (h : ∀ step ∈ f.steps, change step = change' step) :
    f.mapSteps change = f.mapSteps change' := by
  obtain ⟨name, location, description, background, scenarios⟩ := f
  simp only [steps, List.mem_append, List.mem_flatMap] at h
  have hbackground : ∀ b, background = some b → b.steps.map change = b.steps.map change' := by
    rintro b rfl
    exact List.map_congr_left fun step hstep => h step (.inl hstep)
  have hscenarios : ∀ s ∈ scenarios, s.steps.map change = s.steps.map change' := fun s hs =>
    List.map_congr_left fun step hstep => h step (.inr ⟨s, hs, hstep⟩)
  simp only [mapSteps]
  rw [Option.map_congr fun b hb => by rw [hbackground b hb],
    List.map_congr_left fun s hs => by rw [hscenarios s hs]]

namespace TestFile

def mapSteps (change : Step → Step) (f : TestFile) : TestFile :=
  { f with
    feature := f.feature.map (·.mapSteps change)
    declared := f.declared.map fun d => { d with steps := d.steps.map change } }

def unbound (f : TestFile) : TestFile :=
  f.mapSteps fun step => { step with binding := none }

theorem steps_mapSteps (change : Step → Step) (f : TestFile) :
    (f.mapSteps change).steps = f.steps.map change := by
  obtain ⟨name, feature, declared⟩ := f
  rcases feature with _ | ⟨_, _, _, _ | background, scenarios⟩ <;>
    simp [mapSteps, steps, Feature.mapSteps, Feature.steps, List.map_flatMap, List.flatMap_map]

theorem mapSteps_congr {change change' : Step → Step} {f : TestFile}
    (h : ∀ step ∈ f.steps, change step = change' step) :
    f.mapSteps change = f.mapSteps change' := by
  obtain ⟨name, feature, declared⟩ := f
  simp only [steps, List.mem_append, List.mem_flatMap] at h
  have hfeature : ∀ f, feature = some f → f.mapSteps change = f.mapSteps change' := by
    rintro f rfl
    exact Feature.mapSteps_congr fun step hstep => h step (.inl hstep)
  have hdeclared : ∀ d ∈ declared, d.steps.map change = d.steps.map change' := fun d hd =>
    List.map_congr_left fun step hstep => h step (.inr ⟨d, hd, hstep⟩)
  simp only [mapSteps]
  rw [Option.map_congr hfeature, List.map_congr_left fun d hd => by rw [hdeclared d hd]]

theorem mapSteps_mapSteps (change change' : Step → Step) (f : TestFile) :
    (f.mapSteps change).mapSteps change' = f.mapSteps (change' ∘ change) := by
  simp [mapSteps, Feature.mapSteps, Function.comp_def]

end TestFile

/-! ## Visits -/

section
variable {σ α β : Type} {visit : α → StateM σ β} {change : α → β} {record : σ → α → σ}

/-- A visit changes a thing and records it, and what it makes of it does not hang on the state. -/
def Visits (visit : α → StateM σ β) (change : α → β) (record : σ → α → σ) : Prop :=
  ∀ a s, (visit a).run s = pure (change a, record s a)

theorem Visits.list (h : Visits visit change record) :
    Visits (List.mapM visit) (List.map change) (List.foldl record) := by
  intro as s
  induction as generalizing s with
  | nil => rfl
  | cons a as ih =>
    rw [List.mapM_cons, StateT.run_bind, h, pure_bind, StateT.run_bind, ih, pure_bind]
    rfl

theorem Visits.option (h : Visits visit change record) :
    Visits (Option.mapM visit) (Option.map change) (fun s o => o.elim s (record s)) := by
  rintro (_ | a) s
  · rfl
  · rw [Option.mapM_some, StateT.run_map, h]
    rfl

theorem Visits.inside (h : Visits visit change record) {γ δ : Type} (inside : γ → List α)
    (put : γ → List β → δ) :
    Visits (fun x => do return put x (← (inside x).mapM visit))
      (fun x => put x ((inside x).map change)) (fun s x => (inside x).foldl record s) := by
  intro x s
  rw [StateT.run_bind, h.list, pure_bind]
  rfl

end

section
variable {σ : Type} {visit : Step → StateM σ Step} {change : Step → Step} {record : σ → Step → σ}

theorem Visits.feature (h : Visits visit change record) :
    Visits (Feature.visitSteps visit) (Feature.mapSteps change)
      (fun s f => f.steps.foldl record s) := by
  rintro ⟨name, location, description, background, scenarios⟩ s
  have hbackground : Visits
      (fun b : Background => do return { b with steps := ← b.steps.mapM visit })
      (fun b => { b with steps := b.steps.map change }) (fun s b => b.steps.foldl record s) :=
    h.inside Background.steps fun b steps => { b with steps }
  have hscenarios : Visits
      (fun x : Scenario => do return { x with steps := ← x.steps.mapM visit })
      (fun x => { x with steps := x.steps.map change }) (fun s x => x.steps.foldl record s) :=
    h.inside Scenario.steps fun x steps => { x with steps }
  rw [Feature.visitSteps, StateT.run_bind, hbackground.option, pure_bind, StateT.run_bind,
    hscenarios.list, pure_bind]
  simp only [Feature.steps, List.foldl_append, List.foldl_flatMap]
  cases background <;> rfl

/-- A visit of a file changes each step once, where it stands, and goes through them in order. -/
theorem Visits.file (h : Visits visit change record) :
    Visits (TestFile.visitSteps visit) (TestFile.mapSteps change)
      (fun s f => f.steps.foldl record s) := by
  rintro ⟨name, feature, declared⟩ s
  have hdeclared : Visits
      (fun d : DeclaredStep => do return { d with steps := ← d.steps.mapM visit })
      (fun d => { d with steps := d.steps.map change }) (fun s d => d.steps.foldl record s) :=
    h.inside DeclaredStep.steps fun d steps => { d with steps }
  rw [TestFile.visitSteps, StateT.run_bind, h.feature.option, pure_bind, StateT.run_bind,
    hdeclared.list, pure_bind]
  simp only [TestFile.steps, List.foldl_append, List.foldl_flatMap]
  cases feature <;> rfl

end

/-! ## Adding up -/

namespace LinkResult

theorem mem_insertSource {source other : String} {sources : List String} :
    other ∈ insertSource source sources ↔ other = source ∨ other ∈ sources := by
  induction sources with
  | nil => simp [insertSource]
  | cons first rest ih =>
    unfold insertSource
    split
    · exact List.mem_cons
    · split
      · next heq => simp [heq]
      · rw [List.mem_cons, ih, List.mem_cons]
        exact or_left_comm

theorem pairwise_insertSource (source : String) {sources : List String}
    (h : sources.Pairwise (· < ·)) : (insertSource source sources).Pairwise (· < ·) := by
  induction sources with
  | nil => exact List.pairwise_singleton _ _
  | cons first rest ih =>
    obtain ⟨hfirst, hrest⟩ := List.pairwise_cons.1 h
    unfold insertSource
    split
    · next hlt =>
      refine List.pairwise_cons.2 ⟨fun other hother => ?_, h⟩
      rcases List.mem_cons.1 hother with rfl | hother
      · exact hlt
      · exact String.lt_trans hlt (hfirst other hother)
    · split
      · exact h
      · next hle hne =>
        refine List.pairwise_cons.2 ⟨fun other hother => ?_, ih hrest⟩
        rcases mem_insertSource.1 hother with rfl | hother
        · grind
        · exact hfirst other hother

def add (r : LinkResult) (outcome : Step × List Diagnostic) : LinkResult :=
  r.record (outcome.1.binding.map (·.definition.source)) outcome.2

/-- The result is the sum of what became of the steps. -/
structure Sums (name : String) (outcomes : List (Step × List Diagnostic)) (r : LinkResult) :
    Prop where
  name : r.name = name
  diagnostics : r.diagnostics = outcomes.flatMap (·.2)
  total : r.total = outcomes.length
  bound : r.bound = outcomes.countP (·.1.binding.isSome)
  /-- The sources are in order and without repeats. -/
  ordered : r.referenced.Pairwise (· < ·)
  referenced : ∀ uid, uid ∈ r.referenced ↔
    ∃ o ∈ outcomes, ∃ b, o.1.binding = some b ∧ b.definition.source = uid

namespace Sums

variable {name : String} {outcomes : List (Step × List Diagnostic)} {r : LinkResult}

theorem new (name : String) : Sums name [] (.new name) :=
  ⟨rfl, rfl, rfl, rfl, .nil, by simp [LinkResult.new]⟩

theorem add (h : Sums name outcomes r) (outcome : Step × List Diagnostic) :
    Sums name (outcomes ++ [outcome]) (r.add outcome) := by
  obtain ⟨step, messages⟩ := outcome
  have hdiagnostics : r.diagnostics ++ messages =
      (outcomes ++ [(step, messages)]).flatMap (·.2) := by
    simp [h.diagnostics]
  have htotal : r.total + 1 = (outcomes ++ [(step, messages)]).length := by
    simp [h.total]
  unfold LinkResult.add
  rcases hbinding : step.binding with _ | b
  · refine ⟨h.name, hdiagnostics, htotal, ?_, h.ordered, fun uid => ?_⟩
    · simp [LinkResult.record, hbinding, h.bound]
    · simp [LinkResult.record, hbinding, h.referenced, or_and_right, exists_or]
  · refine ⟨h.name, hdiagnostics, htotal, ?_, pairwise_insertSource _ h.ordered, fun uid => ?_⟩
    · simp [LinkResult.record, hbinding, h.bound]
    · simp only [LinkResult.record, hbinding, Option.map_some, mem_insertSource, h.referenced,
        List.mem_append, List.mem_singleton, or_and_right, exists_or, exists_eq_left,
        Option.some.injEq, exists_eq_left']
      rw [or_comm, eq_comm]

theorem foldl (h : Sums name outcomes r) (more : List (Step × List Diagnostic)) :
    Sums name (outcomes ++ more) (more.foldl LinkResult.add r) := by
  induction more generalizing outcomes r with
  | nil => rwa [List.append_nil]
  | cons outcome more ih => simpa using ih (h.add outcome)

theorem success (h : Sums name outcomes r) : r.success = outcomes.all (succeeds ·.2) := by
  rw [LinkResult.success, h.diagnostics, succeeds, List.all_flatMap]
  rfl

end Sums

end LinkResult

/-! ## Linking -/

namespace Linker

theorem bind_unbound (l : Linker) (source : Option String) (step : Step) :
    l.bind source { step with binding := none } = l.bind source step :=
  rfl

theorem succeeds_bind_eq_false {l : Linker} {source : Option String} {step : Step}
    (h : (l.bind source step).1.binding = none) : succeeds (l.bind source step).2 = false := by
  rcases hmatching : l.matching step with _ | ⟨found, _ | ⟨second, rest⟩⟩
  · simp only [bind, verdict, hmatching]
    rfl
  · simp [bind, verdict, hmatching] at h
  · simp only [bind, verdict, hmatching]
    rfl

theorem visits_linkStep (l : Linker) (name : String) :
    Visits (l.linkStep name) (fun step => (l.bind name step).1)
      (fun r step => r.add (l.bind name step)) :=
  fun _ _ => rfl

theorem link_eq (l : Linker) (file : TestFile) :
    l.link file = (file.mapSteps fun step => (l.bind file.name step).1,
      (file.steps.map (l.bind file.name)).foldl .add (.new file.name)) := by
  rw [List.foldl_map]
  exact (l.visits_linkStep file.name).file file (.new file.name)

/-- Linkers that bind the steps of a file alike link it alike. -/
theorem link_eq_of_bind {l l' : Linker} {file : TestFile}
    (h : ∀ step ∈ file.steps, l'.bind file.name step = l.bind file.name step) :
    l'.link file = l.link file := by
  rw [link_eq, link_eq, List.map_congr_left h,
    TestFile.mapSteps_congr fun step hstep => congrArg Prod.fst (h step hstep)]

theorem sums_link (l : Linker) (file : TestFile) :
    LinkResult.Sums file.name (file.steps.map (l.bind file.name)) (l.link file).2 := by
  rw [link_eq]
  exact (LinkResult.Sums.new file.name).foldl _

/-- Files that differ in the bindings of their steps alone are linked alike. -/
theorem link_congr (l : Linker) {file stale : TestFile} (h : stale.unbound = file.unbound) :
    l.link stale = l.link file := by
  have hname : stale.name = file.name := congrArg (·.name) h
  have hinPlace (f : TestFile) : f.unbound.mapSteps (fun step => (l.bind f.name step).1) =
      f.mapSteps fun step => (l.bind f.name step).1 := by
    rw [TestFile.unbound, TestFile.mapSteps_mapSteps]
    exact TestFile.mapSteps_congr fun step _ => congrArg Prod.fst (l.bind_unbound f.name step)
  have houtcomes (f : TestFile) : f.unbound.steps.map (l.bind f.name) =
      f.steps.map (l.bind f.name) := by
    rw [TestFile.unbound, TestFile.steps_mapSteps, List.map_map]
    exact List.map_congr_left fun step _ => l.bind_unbound f.name step
  rw [link_eq, link_eq, ← hinPlace stale, ← houtcomes stale, h, hname, hinPlace, houtcomes]

theorem unbound_link (l : Linker) (file : TestFile) : (l.link file).1.unbound = file.unbound := by
  rw [link_eq]
  exact file.mapSteps_mapSteps _ _

theorem steps_link (l : Linker) (file : TestFile) :
    (l.link file).1.steps = (file.steps.map (l.bind file.name)).map (·.1) := by
  rw [link_eq, TestFile.steps_mapSteps, List.map_map]
  rfl

theorem bound_link (l : Linker) (file : TestFile) :
    (l.link file).2.bound = (l.link file).1.steps.countP (·.binding.isSome) := by
  rw [(l.sums_link file).bound, steps_link]
  exact (List.countP_map (p := fun step : Step => step.binding.isSome) (f := Prod.fst)).symm

theorem mem_referenced_link {l : Linker} {file : TestFile} {uid : String} :
    uid ∈ (l.link file).2.referenced ↔
      ∃ step ∈ (l.link file).1.steps, ∃ b, step.binding = some b ∧ b.definition.source = uid := by
  rw [(l.sums_link file).referenced, steps_link]
  constructor
  · rintro ⟨outcome, houtcome, hbinding⟩
    exact ⟨outcome.1, List.mem_map_of_mem houtcome, hbinding⟩
  · rintro ⟨_, hstep, hbinding⟩
    obtain ⟨outcome, houtcome, rfl⟩ := List.mem_map.1 hstep
    exact ⟨outcome, houtcome, hbinding⟩

/-- If a step were not bound, there would be an error about it. -/
theorem bound_eq_total {l : Linker} {file : TestFile} (h : (l.link file).2.success = true) :
    (l.link file).2.bound = (l.link file).2.total := by
  have hsums := l.sums_link file
  rw [hsums.success, List.all_eq_true] at h
  rw [hsums.bound, hsums.total, List.countP_eq_length]
  intro outcome houtcome
  obtain ⟨step, -, rfl⟩ := List.mem_map.1 houtcome
  refine Option.isSome_iff_ne_none.2 fun hunbound => ?_
  have hfails := succeeds_bind_eq_false hunbound
  rw [h _ houtcome] at hfails
  cases hfails

/-- The file and the result come of binding each step of the file by itself. -/
structure Stepwise (l : Linker) (file : TestFile) (linked : TestFile × LinkResult) : Prop where
  /-- The steps are linked one after the other, in the order in which they are listed. -/
  visits : (linked.1.steps, linked.2) =
    (file.steps.mapM (l.linkStep file.name)).run (.new file.name)
  /-- Each is bound where it stands. -/
  inPlace : linked.1 = file.mapSteps fun step => (l.bind file.name step).1
  sums : LinkResult.Sums file.name (file.steps.map (l.bind file.name)) linked.2
  bound : linked.2.bound = linked.1.steps.countP (·.binding.isSome)
  referenced : ∀ uid, uid ∈ linked.2.referenced ↔
    ∃ step ∈ linked.1.steps, ∃ b, step.binding = some b ∧ b.definition.source = uid
  /-- What the steps were bound to before does not matter. -/
  stale : ∀ stale : TestFile, stale.unbound = file.unbound → l.link stale = linked
  again : l.link linked.1 = linked
  success : linked.2.success = true → linked.2.bound = linked.2.total

/-- Linking a file is binding its steps, each by itself, and nothing of what they come to is lost. -/
theorem link_stepwise (l : Linker) (file : TestFile) : l.Stepwise file (l.link file) where
  visits := by
    rw [(l.visits_linkStep file.name).list, link_eq, TestFile.steps_mapSteps, List.foldl_map]
    rfl
  inPlace := by rw [link_eq]
  sums := l.sums_link file
  bound := l.bound_link file
  referenced _ := mem_referenced_link
  stale _ := l.link_congr
  again := l.link_congr (l.unbound_link file)
  success := bound_eq_total

/-- The background comes first and the bodies of the declared steps come last. -/
example :
    let step (text : String) := Step.ofText (.phase .action) (.phase .action) text ⟨1, 1⟩ none
    let file : TestFile :=
      { name := "order.feature"
        feature := some
          { name := "order", location := ⟨1, 1⟩, description := none
            background := some ⟨⟨1, 1⟩, [step "one"]⟩
            scenarios := [⟨"first", ⟨1, 1⟩, [step "two", step "three"], []⟩,
              ⟨"second", ⟨1, 1⟩, [step "four"], []⟩] }
        declared := [⟨.phase .action, "I go", ⟨1, 1⟩, .optional, none, none, [step "five"]⟩] }
    ((new .standard).link file).2.diagnostics.map (·.cause) =
      ["one", "two", "three", "four", "five"].map .noMatchingDefinition := by
  decide +kernel

end Linker

end StepLinker
