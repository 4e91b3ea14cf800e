import StepLinker.Proofs.Linker.Tracking

/-!
# Definitions that are refused

Whether a definition is refused depends on nothing but itself (`Definition.refusal?`), and one that
is shows nowhere but in the report. A tree is not changed by an addition that fails. A refresh does
what it would do if the refused definitions were not among those supplied: apart from the report,
each of them leaves it as it was, and each other one does the same to two refreshes that differ in
the report only (`Bound.unreported_foldl`). All this takes of a linker is that none of its sources
has a key for a conjunction (`Linker.Bound`), which holds whatever they supply.
-/

namespace StepLinker

def Source.accepted (s : Source) : Source :=
  { s with definitions := s.definitions.filter (·.refusal?.isNone) }

namespace MatchingTree

def Operation.isRefused : Operation → Bool
  | .addOrUpdate d => d.refusal?.isSome
  | _ => false

section
variable {t : MatchingTree} {d : Definition} {error : DefinitionError}

/-- An addition fails if and only if the definition is refused. -/
theorem addOrUpdate_error_iff :
    (∃ error, (t.addOrUpdate d).1 = .error error) ↔ d.refusal?.isSome = true := by
  rw [Option.isSome_iff_ne_none, Ne, Definition.refusal?_eq_none]
  rcases hplace : d.place? with _ | ⟨phase, p⟩
  · obtain ⟨error, hadd⟩ := addOrUpdate_of_not_place? (t := t) hplace
    simp [hadd]
  · rcases addOrUpdate_of_place? (t := t) hplace with ⟨k, -, hadd⟩ | ⟨-, hadd⟩
    · simp [hadd]
    · simp [hadd]

theorem addOrUpdate_error (h : (t.addOrUpdate d).1 = .error error) :
    (d.type = .conjunction ∧ error = .unboundType .conjunction) ∨
      ∃ e, d.pattern = .error e ∧ error = .invalidDeclaration e := by
  rcases htype : d.type with phase | _
  · rcases hp : d.pattern with e | p
    · simp only [addOrUpdate, htype, StepType.phase?, hp] at h
      cases h
      exact .inr ⟨e, rfl, rfl⟩
    · have hrefused := addOrUpdate_error_iff.1 ⟨error, h⟩
      simp [Definition.refusal?, hp, htype] at hrefused
  · rw [addOrUpdate_conjunction htype] at h
    cases h
    exact .inl ⟨rfl, rfl⟩

theorem addOrUpdate_of_error (h : (t.addOrUpdate d).1 = .error error) :
    t.addOrUpdate d = (.error error, t) := by
  rcases hplace : d.place? with _ | ⟨phase, p⟩
  · obtain ⟨error', hadd⟩ := addOrUpdate_of_not_place? (t := t) hplace
    rw [hadd] at h ⊢
    cases h
    rfl
  · rcases addOrUpdate_of_place? (t := t) hplace with ⟨k, -, hadd⟩ | ⟨-, hadd⟩
    · rw [hadd] at h
      cases h
    · rw [hadd] at h
      cases h

theorem run_of_isRefused {op : Operation} (h : op.isRefused = true) : t.run op = t := by
  cases op with
  | addOrUpdate d =>
    obtain ⟨error, hadd⟩ := (addOrUpdate_error_iff (t := t)).2 h
    rw [run, addOrUpdate_of_error hadd]
  | _ => cases h

/-- Additions that fail can be left out of any history. -/
theorem foldl_run_filter (t : MatchingTree) (ops : List Operation) :
    (ops.filter (!·.isRefused)).foldl run t = ops.foldl run t := by
  induction ops generalizing t with
  | nil => rfl
  | cons op ops ih =>
    rcases hop : op.isRefused with _ | _
    · rw [List.filter_cons_of_pos (by simp [hop]), List.foldl_cons, List.foldl_cons, ih]
    · rw [List.filter_cons_of_neg (by simp [hop]), List.foldl_cons, run_of_isRefused hop, ih]

end

end MatchingTree

namespace Refresh

/-- The refresh apart from what it has to report. -/
def unreported (r : Refresh) : Refresh :=
  { r with summary := { r.summary with rejected := 0 }, diagnostics := [] }

section
variable {name : String} {r r' : Refresh} {d : Definition}

/-! ## One definition -/

theorem unreported_update? (r : Refresh) (d : Definition) :
    (r.update? d).map unreported = (r.unreported.update? d).map unreported := by
  have hkeyOf : r.unreported.keyOf? d.signature = r.keyOf? d.signature := rfl
  unfold update?
  rw [hkeyOf]
  cases r.keyOf? d.signature with
  | none => rfl
  | some k =>
    have htree : r.unreported.tree = r.tree := rfl
    simp only [htree]
    rcases r.tree.replace k d with ⟨_ | old, tree⟩ <;> rfl

theorem unreported_add (name : String) (r : Refresh) (d : Definition) :
    (r.add name d).unreported = (r.unreported.add name d).unreported := by
  have htree : r.unreported.tree = r.tree := rfl
  unfold add
  simp only [htree]
  rcases r.tree.addOrUpdate d with ⟨_ | k, tree⟩ <;> rfl

/-- What a definition does apart from the report does not depend on the report. -/
theorem unreported_supply (name : String) (r : Refresh) (d : Definition) :
    (supply name r d).unreported = (supply name r.unreported d).unreported := by
  unfold supply
  cases d.pattern with
  | error _ => rfl
  | ok _ =>
    have hupdate := unreported_update? r d
    rcases hr : r.update? d with _ | r₁ <;> rcases hr' : r.unreported.update? d with _ | r₂ <;>
      rw [hr, hr'] at hupdate
    · exact unreported_add name r d
    · cases hupdate
    · cases hupdate
    · exact Option.some.inj hupdate

theorem exists_supply_eq_keep (name : String) (r : Refresh) (haccepted : d.refusal? = none) :
    ∃ k tree summary, supply name r d = r.keep d k tree summary ∧
      summary.rejected = r.summary.rejected := by
  obtain ⟨p, hp⟩ := Definition.pattern_of_accepted haccepted
  simp only [supply, hp]
  rcases hupdate : r.update? d with _ | r'
  · rcases hadd : r.tree.addOrUpdate d with ⟨error | k, tree⟩
    · have hrefused := MatchingTree.addOrUpdate_error_iff.1 ⟨error, congrArg Prod.fst hadd⟩
      rw [haccepted] at hrefused
      cases hrefused
    · simp only [Option.getD_none, add, hadd]
      exact ⟨k, tree, _, rfl, rfl⟩
  · unfold update? at hupdate
    split at hupdate
    · cases hupdate
    · next k _ =>
      split at hupdate
      · cases hupdate
      · next old tree _ =>
        cases hupdate
        exact ⟨k, tree, _, rfl, rfl⟩

theorem Bound.supply (h : r.Bound) (name : String) (d : Definition) :
    (supply name r d).Bound := by
  rcases hd : d.refusal? with _ | error
  · obtain ⟨k, tree, summary, hsupply, -⟩ := exists_supply_eq_keep name r hd
    rw [hsupply]
    intro s htype
    have hs : d.signature ≠ s := by
      rintro rfl
      exact Definition.type_ne_conjunction hd htype
    rw [keyOf?_keep, if_neg hs]
    exact h s htype
  · rw [h.supply_of_refusal hd]
    exact h

theorem Bound.report_supply (h : r.Bound) (name : String) (d : Definition) :
    (Refresh.supply name r d).diagnostics = r.diagnostics ++ (d.report? name).toList ∧
      (Refresh.supply name r d).summary.rejected =
        r.summary.rejected + [d].countP (·.refusal?.isSome) := by
  rcases hd : d.refusal? with _ | error
  · obtain ⟨k, tree, summary, hsupply, hrejected⟩ := exists_supply_eq_keep name r hd
    rw [hsupply]
    simp [Definition.report?, hd, keep, hrejected]
  · rw [h.supply_of_refusal hd]
    simp [Definition.report?, hd, reject]

/-! ## The whole refresh -/

/-- The refused definitions may as well not be supplied. -/
theorem Bound.unreported_foldl (h : r.Bound) (hr : r.unreported = r'.unreported)
    (ds : List Definition) : (ds.foldl (Refresh.supply name) r).unreported =
      ((ds.filter (·.refusal?.isNone)).foldl (Refresh.supply name) r').unreported := by
  -- `Bound` holds all along, so that a conjunction is refused even behind its namesakes
  induction ds generalizing r r' with
  | nil => exact hr
  | cons d ds ih =>
    rw [List.foldl_cons]
    rcases hd : d.refusal? with _ | error
    · rw [List.filter_cons_of_pos (by simp [hd]), List.foldl_cons]
      refine ih (h.supply name d) ?_
      rw [unreported_supply, hr, ← unreported_supply]
    · rw [List.filter_cons_of_neg (by simp [hd])]
      refine ih (h.supply name d) ?_
      rw [h.supply_of_refusal hd]
      exact hr

theorem Bound.foldl (h : r.Bound) (name : String) (ds : List Definition) :
    (ds.foldl (Refresh.supply name) r).Bound := by
  induction ds generalizing r with
  | nil => exact h
  | cons d ds ih => exact ih (h.supply name d)

theorem Bound.report_foldl (h : r.Bound) (name : String) (ds : List Definition) :
    (ds.foldl (Refresh.supply name) r).diagnostics =
        r.diagnostics ++ ds.filterMap (Definition.report? name) ∧
      (ds.foldl (Refresh.supply name) r).summary.rejected =
        r.summary.rejected + ds.countP (·.refusal?.isSome) := by
  induction ds generalizing r with
  | nil => simp
  | cons d ds ih =>
    obtain ⟨hdiagnostics, hrejected⟩ := ih (h.supply name d)
    obtain ⟨hdiagnostics', hrejected'⟩ := h.report_supply name d
    rw [List.foldl_cons, hdiagnostics, hrejected, hdiagnostics', hrejected', List.append_assoc,
      List.filterMap_cons, List.countP_cons (l := ds), List.countP_singleton]
    refine ⟨?_, by omega⟩
    cases d.report? name <;> rfl

theorem unreported_finish (r : Refresh) : r.finish.unreported = r.unreported.finish :=
  rfl

theorem Bound.unreported_run {t : MatchingTree} {previous : Keyed Signature SlotKey}
    (h : (start t previous).Bound) (s : Source) :
    (run t previous s).unreported = (run t previous s.accepted).unreported := by
  unfold run
  rw [unreported_finish, unreported_finish, h.unreported_foldl rfl]
  rfl

theorem Bound.report_run {t : MatchingTree} {previous : Keyed Signature SlotKey}
    (h : (start t previous).Bound) (s : Source) :
    (run t previous s).diagnostics = s.definitions.filterMap (Definition.report? s.name) ∧
      (run t previous s).summary.rejected = s.definitions.countP (·.refusal?.isSome) := by
  obtain ⟨hdiagnostics, hrejected⟩ := h.report_foldl s.name s.definitions
  exact ⟨hdiagnostics, hrejected.trans (Nat.zero_add _)⟩

end

end Refresh

/-- The report has one message for each refused definition, in order. -/
theorem Definition.forall₂_report (name : String) (ds : List Definition) :
    List.Forall₂ (fun d m => ∃ error, d.refusal? = some error ∧ m = Refresh.rejection name d error)
      (ds.filter (·.refusal?.isSome)) (ds.filterMap (report? name)) := by
  induction ds with
  | nil => exact .nil
  | cons d ds ih =>
    rcases hd : d.refusal? with _ | error
    · have hreport : d.report? name = none := by
        rw [report?, hd, Option.map_none]
      rw [List.filter_cons_of_neg (by simp [hd]), List.filterMap_cons_none hreport]
      exact ih
    · have hreport : d.report? name = some (Refresh.rejection name d error) := by
        rw [report?, hd, Option.map_some]
      rw [List.filter_cons_of_pos (by simp [hd]), List.filterMap_cons_some hreport]
      exact .cons ⟨error, hd, rfl⟩ ih

theorem Definition.succeeds_report (name : String) (ds : List Definition) :
    succeeds (ds.filterMap (report? name)) = true ↔ ∀ d ∈ ds, d.refusal? = none := by
  rw [succeeds, List.all_eq_true]
  constructor
  · intro hall d hd
    rcases hrefusal : d.refusal? with _ | error
    · rfl
    · have hmem : Refresh.rejection name d error ∈ ds.filterMap (report? name) :=
        List.mem_filterMap.2 ⟨d, hd, by rw [report?, hrefusal, Option.map_some]⟩
      cases hall _ hmem
  · intro hnone m hm
    obtain ⟨d, hd, hreport⟩ := List.mem_filterMap.1 hm
    rw [report?, hnone d hd] at hreport
    cases hreport

namespace Linker

/-- `result` is what comes of the source, `result'` of its definitions that are not refused. -/
structure Screened (s : Source) (result result' : Outcome Summary Diagnostic × Linker) :
    Prop where
  linker : result.2 = result'.2
  counts : ∃ summary summary',
    result.1.output = some summary ∧ result'.1.output = some summary' ∧
      summary.added = summary'.added ∧ summary.updated = summary'.updated ∧
        summary.removed = summary'.removed ∧ summary'.rejected = 0 ∧
          summary.rejected = s.definitions.countP (·.refusal?.isSome)
  /-- Each refused definition is reported once, under the name of the source. -/
  reports : List.Forall₂ (fun d m => ∃ error, d.refusal? = some error ∧
      m.source = some s.name ∧ m.cause = .declarationInvalid d.declaration error)
    (s.definitions.filter (·.refusal?.isSome)) result.1.messages
  success : result.1.success = true ↔ ∀ d ∈ s.definitions, d.refusal? = none

/-- No conjunction is known under a key of any source. -/
def Bound (l : Linker) : Prop :=
  ∀ uid s, s.type = .conjunction → (l.keysOf uid).find? s = none

section
variable {l l' : Linker}

theorem bound_new (options : LinkerOptions) : (new options).Bound :=
  fun _ _ _ => rfl

theorem Bound.start (h : l.Bound) (uid : String) :
    (Refresh.start l.tree (l.keysOf uid)).Bound :=
  fun s htype => Option.or_eq_none_iff.2 ⟨h uid s htype, rfl⟩

theorem Bound.dropped (h : l.Bound) (uid : String) : (l.dropped uid).Bound := by
  intro uid' s htype
  rw [keysOf_dropped]
  split
  · rfl
  · exact h uid' s htype

theorem Bound.refresh (h : l.Bound) (s : Source) : (l.refresh s).2.Bound := by
  intro uid sig htype
  rw [keysOf_refresh]
  split
  · exact (Option.or_eq_none_iff.1 ((h.start s.uid).foldl s.name s.definitions sig htype)).2
  · exact h uid sig htype

theorem Bound.register (h : l.Bound) (s : Source) : (l.register s).2.Bound := by
  rw [register_eq]
  exact (h.dropped s.uid).refresh s

theorem Bound.update (h : l.Bound) (s : Source) : (l.update s).2.Bound := by
  unfold Linker.update
  split
  · exact h.refresh s
  · exact h.register s

theorem ReachableWith.bound {P : Source → Prop} (h : l.ReachableWith P) : l.Bound := by
  induction h with
  | new options => exact bound_new options
  | register _ _ ih => exact ih.register _
  | update _ _ ih => exact ih.update _
  | unregister uid _ ih => exact ih.dropped uid

theorem Bound.screened_refresh (h : l.Bound) (s : Source) :
    Screened s (l.refresh s) (l.refresh s.accepted) := by
  have hstart := h.start s.uid
  have hrun := hstart.unreported_run s
  obtain ⟨hdiagnostics, hrejected⟩ := hstart.report_run s
  obtain ⟨-, hrejected'⟩ := hstart.report_run s.accepted
  have hmessages : (l.refresh s).1.messages =
      s.definitions.filterMap (Definition.report? s.name) := hdiagnostics
  refine ⟨?_, ⟨_, _, rfl, rfl, congrArg (·.summary.added) hrun, congrArg (·.summary.updated) hrun,
    congrArg (·.summary.removed) hrun, ?_, hrejected⟩, ?_, ?_⟩
  · have htree := congrArg Refresh.tree hrun
    have hcurrent := congrArg Refresh.current hrun
    show Linker.mk (Refresh.run l.tree (l.keysOf s.uid) s).unreported.tree (Keyed.insert _ _
      ⟨s.name, (Refresh.run l.tree (l.keysOf s.uid) s).unreported.current⟩) _ = _
    rw [htree, hcurrent]
    rfl
  · refine hrejected'.trans (List.countP_eq_zero.2 fun d hd => ?_)
    have haccepted := (List.mem_filter.1 hd).2
    rw [Option.isNone_iff_eq_none] at haccepted
    simp [haccepted]
  · rw [hmessages]
    refine (Definition.forall₂_report s.name s.definitions).imp fun d m => ?_
    rintro ⟨error, hd, rfl⟩
    exact ⟨error, hd, rfl, rfl⟩
  · rw [Outcome.success, hmessages]
    exact Definition.succeeds_report s.name s.definitions

theorem Bound.screened_register (h : l.Bound) (s : Source) :
    Screened s (l.register s) (l.register s.accepted) := by
  rw [register_eq, register_eq]
  exact (h.dropped s.uid).screened_refresh s

theorem Bound.screened_update (h : l.Bound) (s : Source) :
    Screened s (l.update s) (l.update s.accepted) := by
  show Screened s (if s.kind.isUpdatable then _ else _) (if s.kind.isUpdatable then _ else _)
  split
  · exact h.screened_refresh s
  · exact h.screened_register s

end

/-- Refused definitions leave no trace but the report. A tree that an addition fails on stays as it
is, so that the addition can be left out of its history. A source that is registered or updated does
to the linker what it does without them, whatever sources the linker has seen. -/
theorem ReachableWith.refused_without_trace {l : Linker} (hl : l.ReachableWith fun _ => True) :
    (∀ t : MatchingTree,
      (∀ d, (∃ error, (t.addOrUpdate d).1 = .error error) ↔ d.refusal?.isSome = true) ∧
      (∀ d error, (t.addOrUpdate d).1 = .error error → (t.addOrUpdate d).2 = t ∧
        ((d.type = .conjunction ∧ error = .unboundType .conjunction) ∨
          ∃ e, d.pattern = .error e ∧ error = .invalidDeclaration e)) ∧
      ∀ ops : List MatchingTree.Operation,
        (ops.filter (!·.isRefused)).foldl MatchingTree.run t = ops.foldl MatchingTree.run t) ∧
    ∀ s, Screened s (l.register s) (l.register s.accepted) ∧
      Screened s (l.update s) (l.update s.accepted) := by
  have h := hl.bound
  refine ⟨fun t => ⟨fun d => MatchingTree.addOrUpdate_error_iff, fun d error herror => ?_,
    t.foldl_run_filter⟩, fun s => ⟨h.screened_register s, h.screened_update s⟩⟩
  exact ⟨congrArg Prod.snd (MatchingTree.addOrUpdate_of_error herror),
    MatchingTree.addOrUpdate_error herror⟩

/-- A file that is updated. Between a step that stays and one that is new, there are one without a
phase and one that does not compile; another step is gone. -/
theorem refused_without_trace_door :
    let declared (type : StepType) (declaration : String) : DeclaredStep :=
      ⟨type, declaration, ⟨1, 1⟩, .optional, none, none, []⟩
    let before : Source := .ofFile ⟨"door", none,
      [declared (.phase .action) "I knock", declared (.phase .outcome) "it opens"]⟩
    let after : Source := .ofFile ⟨"door", none,
      [declared .conjunction "I knock", declared (.phase .action) "I knock",
        declared (.phase .action) "I knock {n:times}", declared (.phase .action) "I ring"]⟩
    let bow : Definition := ⟨"door", .conjunction, "I bow", .optional, .native "bow" none, none⟩
    let l := ((new .standard).register before).2
    l.ReachableWith (fun _ => True) ∧ (l.tree.addOrUpdate bow).2 = l.tree ∧
      Screened after (l.update after) (l.update after.accepted) ∧
      (l.update after).1.output = some ⟨1, 1, 1, 2⟩ ∧
      (l.update after.accepted).1.output = some ⟨1, 1, 1, 0⟩ := by
  intro declared before after bow l
  have hl : l.ReachableWith fun _ => True := .register (.new .standard) trivial
  obtain ⟨htree, hscreened⟩ := hl.refused_without_trace
  have hbow : (l.tree.addOrUpdate bow).1 = .error (.unboundType .conjunction) :=
    congrArg Prod.fst (MatchingTree.addOrUpdate_conjunction rfl)
  exact ⟨hl, ((htree l.tree).2.1 bow _ hbow).1, (hscreened after).2, by decide +kernel,
    by decide +kernel⟩

end Linker

end StepLinker
