import StepLinker.Proofs.Linker.Rebuild
import StepLinker.Proofs.Tree.Arguments

/-!
# Binding a step

What a linker makes of a step hangs on the definitions that fit it (`Fits`): those in the tree that
are of its type and have a reading of it. `Settled` says what comes of a step for each list of
fitting definitions: without one, or with several, it is not bound and the error says so; with
exactly one it is bound, whatever is found wrong with its arguments or its table. `bind_settled`
shows that the linker does just that. So the outcome hangs on the definitions in the tree and not on
how they got there, but for the order in which several are listed (`sameOutcome_bind`).
-/

namespace StepLinker

/-! ## Findings -/

/-- What is found wrong with an argument is one of three things, and names the placeholder. -/
def Cause.IsAbout (cause : Cause) (p : Placeholder) : Prop :=
  (∃ type, cause = .valueRequired type p.name) ∨
    (∃ value type, cause = .typeNotCompatible value type p.name) ∨
    cause = .surroundingWhitespace p.name

theorem ArgumentMatch.of_mem_findings {m : ArgumentMatch} {step : Step} {warn : Bool}
    {cause : Cause} {range : Text.Range} (h : (cause, range) ∈ m.findings step warn) :
    cause.IsAbout m.placeholder ∧ ∃ a b, range = step.tokenRange a b := by
  simp only [findings, List.mem_append, Option.mem_toList] at h
  rcases h with htype | hpadding
  · unfold typeError? at htype
    split at htype
    · cases htype
    · next hint _ =>
      split at htype
      · split at htype
        · cases htype
          exact ⟨.inl ⟨hint, rfl⟩, _, _, rfl⟩
        · cases htype
      · split at htype
        · cases htype
        · split at htype
          · cases htype
          · cases htype
            exact ⟨.inr (.inl ⟨_, hint, rfl⟩), _, _, rfl⟩
  · cases warn with
    | false => cases hpadding
    | true =>
      simp only [padding?, if_true, Option.ite_none_right_eq_some, Option.some.injEq] at hpadding
      cases hpadding.2
      exact ⟨.inr (.inr rfl), _, _, rfl⟩

theorem ArgumentMatch.map_bind (arguments : List ArgumentMatch) (s : Statement) :
    (arguments.map (·.bind s)).map (fun b => (⟨b.placeholder, b.span⟩ : ArgumentMatch)) =
      arguments := by
  rw [List.map_map]
  exact List.map_id _

theorem ArgumentMatch.map_placeholder_bind (arguments : List ArgumentMatch) (s : Statement) :
    (arguments.map (·.bind s)).map (·.placeholder) = arguments.map (·.placeholder) := by
  rw [List.map_map]
  rfl

/-- What is reported about the table of a step that is bound to the definition. -/
inductive TableReport (source : Option String) (d : Definition) (step : Step) :
    List Diagnostic → Prop where
  | missing (required : d.table = .required) (none : step.table = none) :
      TableReport source d step [⟨source, .tableRequired d.declaration, step.range⟩]
  | unwanted {table : Table} (notSupported : d.table = .notSupported)
      (some : step.table = some table) :
      TableReport source d step [⟨source, .tableNotSupported d.declaration, .point table.location⟩]
  | fine (notMissing : ¬ (d.table = .required ∧ step.table = none))
      (notUnwanted : ¬ (d.table = .notSupported ∧ step.table ≠ none)) :
      TableReport source d step []

/-- A finding with the file that it is about. -/
def Diagnostic.ofFinding (source : Option String) (finding : Cause × Text.Range) : Diagnostic :=
  ⟨source, finding.1, finding.2⟩

namespace Linker

theorem tableReport (source : Option String) (d : Definition) (step : Step) :
    TableReport source d step ((tableFinding? d step).toList.map (.ofFinding source)) := by
  unfold tableFinding?
  split
  · next hrequired hnone => exact .missing hrequired hnone
  · next table hnotSupported hsome => exact .unwanted hnotSupported hsome
  · next hmissing hunwanted =>
    refine .fine (fun h => hmissing h.1 h.2) fun h => ?_
    obtain ⟨table, hsome⟩ := Option.ne_none_iff_exists'.1 h.2
    exact hunwanted table h.1 hsome

/-! ## The outcome -/

/-- The definition is in the tree, is of the type the step is bound as, and has a reading of it. -/
structure Fits (l : Linker) (step : Step) (d : Definition) : Prop where
  live : ∃ k, l.tree.get? k = some d
  type : d.type = step.bindingType
  reading : ∃ p pieces, Pattern.ofDeclaration d.declaration = .ok p ∧
    IsReading p.parts step.statement.tokens.toList pieces

/-- What becomes of a step that these definitions fit. -/
inductive Settled (l : Linker) (source : Option String) (step : Step) :
    List Definition → Step × List Diagnostic → Prop where
  | unmatched : Settled l source step []
      ({ step with binding := none }, [⟨source, .noMatchingDefinition step.text, step.range⟩])
  /-- All that fit are counted. -/
  | ambiguous {fitting : List Definition} (several : 2 ≤ fitting.length) :
      Settled l source step fitting
        ({ step with binding := none },
          [⟨source, .multipleMatchingDefinitions step.text
            (fitting.map fun d => (d.source, d.declaration)), step.range⟩])
  /-- The arguments are those of the exact match, and each is bound: there is a binding for each
  placeholder, in their order, and it takes up the tokens that a reading gives the placeholder. What
  is found about the arguments comes in their order, and what is found about the table after it. -/
  | bound {d : Definition} {p : Pattern} {arguments : List ArgumentMatch}
      {bindings : List ArgumentBinding} {table : List Diagnostic}
      (live : ∃ k, l.tree.get? k = some d)
      (matched : ∃ m ∈ l.matching step, m.definition = d ∧ m.arguments = arguments)
      (registered : l.isRegistered d.source = true)
      (compiled : Pattern.ofDeclaration d.declaration = .ok p)
      (made : bindings = arguments.map (·.bind step.statement))
      (placeholders : bindings.map (·.placeholder) = p.placeholders)
      (reading : ∃ pieces, IsReading p.parts step.statement.tokens.toList pieces ∧
        bindings.map (fun b => ⟨b.placeholder, b.span⟩) = argumentsFrom 0 p.parts pieces)
      (about : ∀ m ∈ arguments, ∀ f ∈ m.findings step l.options.whitespaceWarnings,
        f.1.IsAbout m.placeholder)
      (report : TableReport source d step table) :
      Settled l source step [d]
        ({ step with binding := some ⟨d, bindings⟩ },
          (arguments.flatMap (·.findings step l.options.whitespaceWarnings)).map
            (.ofFinding source) ++ table)

section
variable {l : Linker} {step : Step}

/-- A step is bound to the one definition that matches it, with its arguments. -/
theorem exists_matching_of_binding {source : Option String} {b : Binding}
    (h : (l.bind source step).1.binding = some b) :
    ∃ found, l.matching step = [found] ∧
      b = ⟨found.definition, found.arguments.map (·.bind step.statement)⟩ := by
  rcases hmatching : l.matching step with _ | ⟨found, _ | ⟨second, rest⟩⟩
  · simp [bind, verdict, hmatching] at h
  · simp only [bind, verdict, hmatching, Option.some.injEq] at h
    exact ⟨found, rfl, h.symm⟩
  · simp [bind, verdict, hmatching] at h

theorem Consistent.exists_reading_of_mem_matching (h : l.Consistent) {m : Match}
    (hm : m ∈ l.matching step) :
    ∃ p pieces, Pattern.ofDeclaration m.definition.declaration = .ok p ∧
      IsReading p.parts step.statement.tokens.toList pieces ∧
      m.arguments = argumentsFrom 0 p.parts pieces :=
  h.tree.wellFormed.exists_reading_of_mem_exactMatches hm

theorem Consistent.mem_matching (h : l.Consistent) {m : Match} : m ∈ l.matching step ↔
    ∃ k d phase, step.bindingType = .phase phase ∧ l.tree.get? k = some d ∧
      d.type = .phase phase ∧ d.match? k step.statement.tokens = some m := by
  show m ∈ l.tree.exactMatches step.bindingType step.statement false ↔ _
  cases step.bindingType with
  | conjunction =>
    simp [MatchingTree.exactMatches, MatchingTree.search, StepType.phase?]
  | phase phase =>
    rw [h.tree.wellFormed.mem_exactMatches]
    constructor
    · rintro ⟨k, d, hd, htype, hm⟩
      exact ⟨k, d, phase, rfl, hd, htype, hm⟩
    · rintro ⟨k, d, _, hphase, hd, htype, hm⟩
      exact ⟨k, d, hd, htype.trans hphase.symm, hm⟩

theorem Consistent.mem_matching_definitions (h : l.Consistent) {d : Definition} :
    d ∈ (l.matching step).map (·.definition) ↔ l.Fits step d := by
  rw [List.mem_map]
  constructor
  · rintro ⟨m, hm, rfl⟩
    obtain ⟨p, pieces, hp, hreading, -⟩ := h.exists_reading_of_mem_matching hm
    obtain ⟨k, d, phase, htype, hd, htype', hmatch⟩ := h.mem_matching.1 hm
    rw [Definition.definition_of_match? hmatch] at hp ⊢
    exact ⟨⟨k, hd⟩, htype'.trans htype.symm, p, pieces, hp, hreading⟩
  · rintro ⟨⟨k, hd⟩, htype, p, pieces, hp, hreading⟩
    obtain ⟨e, he, rfl⟩ := MatchingTree.get?_eq_some.1 hd
    obtain ⟨phase, p', hplace, -⟩ := h.tree.wellFormed.exists_place? he
    obtain ⟨htype', hp'⟩ := Definition.place?_eq_some.1 hplace
    obtain rfl : p = p' :=
      Except.ok.inj (hp.symm.trans ((h.tree.wellFormed.compiled he).symm.trans hp'))
    have hsome := (Definition.isSome_match? hplace k step.statement.tokens).2 ⟨pieces, hreading⟩
    obtain ⟨m, hm⟩ := Option.isSome_iff_exists.1 hsome
    exact ⟨m, h.mem_matching.2 ⟨k, _, phase, htype.symm.trans htype', hd, htype', hm⟩,
      Definition.definition_of_match? hm⟩

theorem Consistent.nodup_matching (h : l.Consistent) :
    ((l.matching step).map (·.definition)).Nodup := by
  show ((l.tree.exactMatches step.bindingType step.statement false).map (·.definition)).Nodup
  cases step.bindingType with
  | conjunction => exact List.nodup_nil
  | phase phase =>
    exact h.tree.wellFormed.nodup_definitions (fun _ _ _ => h.key_unique) phase

/-- What the linker does with a step is what becomes of it by the definitions that match. -/
theorem Consistent.settled_bind (h : l.Consistent) (source : Option String) (step : Step) :
    l.Settled source step ((l.matching step).map (·.definition)) (l.bind source step) := by
  rcases hmatching : l.matching step with _ | ⟨found, _ | ⟨second, rest⟩⟩
  · simp only [bind, verdict, hmatching]
    exact .unmatched
  · have hfound : found ∈ l.matching step := hmatching ▸ List.mem_cons_self
    obtain ⟨k, d, _, -, hd, -, hmatch⟩ := h.mem_matching.1 hfound
    obtain ⟨p, pieces, hp, hreading, harguments⟩ := h.exists_reading_of_mem_matching hfound
    rw [← Definition.definition_of_match? hmatch] at hd
    have hregistered : l.isRegistered found.definition.source = true := by
      obtain ⟨r, hr⟩ := h.owned k _ hd
      rw [isRegistered, Keyed.contains, hr]
      rfl
    simp only [bind, verdict, hmatching, List.map_append]
    refine .bound ⟨k, hd⟩ ⟨found, hfound, rfl, rfl⟩ hregistered hp rfl ?_
      ⟨pieces, hreading, ?_⟩ (fun _ _ _ hf => (ArgumentMatch.of_mem_findings hf).1)
      (tableReport source _ step)
    · rw [ArgumentMatch.map_placeholder_bind, harguments, map_placeholder_argumentsFrom hreading.1,
        Pattern.placeholders]
    · rw [ArgumentMatch.map_bind, harguments]
  · have hseveral : 2 ≤ ((found :: second :: rest).map (·.definition)).length := by simp
    have hsettled : l.Settled source step _ _ := .ambiguous hseveral
    simp only [List.map_map, Function.comp_def] at hsettled
    simp only [bind, verdict, hmatching]
    exact hsettled

theorem Settled.succeeds_eq_false {source : Option String} {fitting : List Definition}
    {outcome : Step × List Diagnostic} (h : l.Settled source step fitting outcome)
    (hunbound : outcome.1.binding = none) : succeeds outcome.2 = false := by
  cases h with
  | unmatched => rfl
  | ambiguous _ => rfl
  | bound => cases hunbound

/-- Only the two errors about the step as a whole leave it unbound. -/
theorem Settled.binding_ne_none {source : Option String} {fitting : List Definition}
    {outcome : Step × List Diagnostic} (h : l.Settled source step fitting outcome)
    {m : Diagnostic} (hm : m ∈ outcome.2) (hnone : m.cause.code ≠ .noMatchingDefinition)
    (hseveral : m.cause.code ≠ .multipleMatchingDefinitions) : outcome.1.binding ≠ none := by
  cases h with
  | unmatched =>
    rw [List.mem_singleton.1 hm] at hnone
    exact absurd rfl hnone
  | ambiguous _ =>
    rw [List.mem_singleton.1 hm] at hseveral
    exact absurd rfl hseveral
  | bound => exact Option.some_ne_none _

end

/-- Binding a step comes out by the definitions that fit it, whatever the step was bound to before.
A step that is left unbound is an error, and nothing that is found wrong with arguments or the
table leaves it so. -/
theorem Reachable.bind_settled {l : Linker} (hl : l.Reachable) (source : Option String)
    (step : Step) :
    (∃ fitting : List Definition, fitting.Nodup ∧ (∀ d, d ∈ fitting ↔ l.Fits step d) ∧
      l.Settled source step fitting (l.bind source step)) ∧
    ((l.bind source step).1.binding = none → succeeds (l.bind source step).2 = false) ∧
    ∀ m ∈ (l.bind source step).2, m.cause.code ≠ .noMatchingDefinition →
      m.cause.code ≠ .multipleMatchingDefinitions → (l.bind source step).1.binding ≠ none := by
  have h := hl.consistent
  have hsettled := h.settled_bind source step
  exact ⟨⟨_, h.nodup_matching, fun _ => h.mem_matching_definitions, hsettled⟩,
    hsettled.succeeds_eq_false, fun _ => hsettled.binding_ne_none⟩

/-- The step was bound to a definition that is no longer there. What it says is padded and it has a
table that is not asked for, and still it is bound. -/
theorem bind_settled_shout :
    let handler (declaration : String) : Source :=
      .native "voice" "handlers" [⟨.phase .action, declaration, "say", .notSupported, none⟩]
    let l := (((new .standard).register (handler "I say {what}")).2.register
      (handler "I shout '{what:text}'")).2
    let stale : Binding :=
      ⟨⟨"voice", .phase .action, "I say {what}", .notSupported, .native "say" none, none⟩, []⟩
    let step : Step :=
      { Step.ofText (.phase .action) (.phase .action) "I shout ' hello '" ⟨1, 3⟩
          (some ⟨⟨2, 3⟩, ["word"], []⟩) with binding := some stale }
    l.Reachable ∧
      (∃ fitting : List Definition, fitting.Nodup ∧ (∀ d, d ∈ fitting ↔ l.Fits step d) ∧
        l.Settled none step fitting (l.bind none step)) ∧
      (l.bind none step).1.binding ≠ none ∧
      (l.bind none step).1.binding.map (·.arguments.map fun b => (b.placeholder.name, b.raw)) =
        some [("what", "hello")] ∧
      (l.bind none step).2.map (·.cause.code) = [.surroundingWhitespace, .tableNotSupported] := by
  intro handler l stale step
  have hl : l.Reachable :=
    .register (.register (.new .standard) (.native _ _ _)) (.native _ _ _)
  obtain ⟨hsettled, -, hbound⟩ := hl.bind_settled none step
  have hcodes : (l.bind none step).2.map (·.cause.code) =
      [.surroundingWhitespace, .tableNotSupported] := by decide +kernel
  obtain ⟨m, hm, hcode⟩ : ∃ m ∈ (l.bind none step).2, m.cause.code = .tableNotSupported :=
    List.mem_map.1 (by rw [hcodes]; decide)
  exact ⟨hl, hsettled, hbound m hm (by simp [hcode]) (by simp [hcode]), by decide +kernel, hcodes⟩

end Linker

/-! ## The same definitions -/

/-- The diagnostics say the same, but may list the definitions that match in different orders. -/
inductive Diagnostic.Similar : Diagnostic → Diagnostic → Prop where
  | refl (m : Diagnostic) : Similar m m
  | reordered {source : Option String} {range : Text.Range} {step : String}
      {definitions definitions' : List (String × String)} (perm : definitions.Perm definitions') :
      Similar ⟨source, .multipleMatchingDefinitions step definitions, range⟩
        ⟨source, .multipleMatchingDefinitions step definitions', range⟩

/-- The outcomes are the same step and the same diagnostics, but for the order in which these list
definitions. -/
structure SameOutcome (outcome outcome' : Step × List Diagnostic) : Prop where
  step : outcome.1 = outcome'.1
  messages : List.Forall₂ Diagnostic.Similar outcome.2 outcome'.2
  codes : outcome.2.map (fun m => (m.source, m.cause.code, m.range)) =
    outcome'.2.map fun m => (m.source, m.cause.code, m.range)

theorem SameOutcome.of_similar {step step' : Step} {messages messages' : List Diagnostic}
    (hstep : step = step') (h : List.Forall₂ Diagnostic.Similar messages messages') :
    SameOutcome (step, messages) (step', messages') := by
  refine ⟨hstep, h, ?_⟩
  induction h with
  | nil => rfl
  | cons hm _ ih =>
    rw [List.map_cons, List.map_cons, ih]
    cases hm <;> rfl

theorem SameOutcome.refl (outcome : Step × List Diagnostic) : SameOutcome outcome outcome :=
  .of_similar rfl (List.forall₂_same.2 fun m _ => .refl m)

/-- Linkers with the same definitions bind a step alike. -/
theorem Linker.Consistent.sameOutcome_bind {l l' : Linker} (h : l.Consistent)
    (h' : l'.Consistent) (hoptions : l.options = l'.options)
    (hlive : ∀ d, d ∈ l.tree.live ↔ d ∈ l'.tree.live) (source : Option String) (step : Step) :
    SameOutcome (l.bind source step) (l'.bind source step) := by
  have hperm : ((l.matching step).map Match.view).Perm ((l'.matching step).map Match.view) :=
    h.tree.wellFormed.perm_views h'.tree.wellFormed (fun _ _ _ => h.key_unique)
      (fun _ _ _ => h'.key_unique) hlive step.bindingType
  rcases hmatching : l.matching step with _ | ⟨found, _ | ⟨second, rest⟩⟩
  · have hmatching' : l'.matching step = [] := by
      simpa [hmatching] using hperm
    simp only [bind, verdict, hmatching, hmatching']
    exact .refl _
  · obtain ⟨found', hmatching', hview⟩ : ∃ found', l'.matching step = [found'] ∧
        found'.view = found.view := by
      rw [hmatching] at hperm
      exact List.map_eq_singleton_iff.1 (List.singleton_perm.1 hperm).symm
    simp only [Match.view, Prod.mk.injEq] at hview
    simp only [bind, verdict, hmatching, hmatching', hview, hoptions]
    exact .refl _
  · obtain ⟨found', second', rest', hmatching'⟩ : ∃ found' second' rest',
        l'.matching step = found' :: second' :: rest' := by
      have hlength := hperm.length_eq
      rcases hmatching' : l'.matching step with _ | ⟨found', _ | ⟨second', rest'⟩⟩
      · simp [hmatching, hmatching'] at hlength
      · simp [hmatching, hmatching'] at hlength
      · exact ⟨found', second', rest', rfl⟩
    have hdefinitions := hperm.map fun v => (v.1.source, v.1.declaration)
    simp only [List.map_map, Function.comp_def, Match.view, hmatching, hmatching']
      at hdefinitions
    simp only [bind, verdict, hmatching, hmatching']
    exact .of_similar rfl (.cons (.reordered hdefinitions) .nil)

end StepLinker
