import StepLinker.Proofs.Linker.Binding
import StepLinker.Proofs.Linker.Frame
import StepLinker.Proofs.Linker.Linking

/-!
# What a file depends on

The result of linking a file names the sources to which its steps are bound. If all of them are
bound, no other source had a part in it: a match with a definition of another source would have left
the step unbound. So such a source can go, and the file is linked as before
(`Reachable.link_without_unreferenced`). Without it the tree has fewer nodes and a step may be found
by another way, but what matches a step is the same but for the definitions that went
(`Consistent.perm_matching_dropped`), and of a single match there is only one order.
-/

namespace StepLinker

namespace Linker

section
variable {l : Linker} {uid : String} {step : Step} {file : TestFile}

/-- Without a source, a step matches all that it did but for the definitions of the source. -/
theorem Consistent.perm_matching_dropped (h : l.Consistent) (uid : String) (step : Step) :
    ((l.dropped uid).matching step).Perm
      ((l.matching step).filter (·.definition.source ≠ uid)) := by
  have hothers : ∀ m ∈ (l.dropped uid).matching step, m.definition.source ≠ uid := by
    intro m hm
    obtain ⟨k, hk⟩ := ((h.dropped uid).mem_matching_definitions.1 (List.mem_map_of_mem hm)).live
    exact ((h.get?_dropped uid k _).1 hk).2
  have hkept (k : SlotKey) (d : Definition) (hd : d.source ≠ uid) :
      (l.dropped uid).tree.get? k = some d ↔ l.tree.get? k = some d := by
    rw [h.get?_dropped, and_iff_left hd]
  have hperm : (((l.dropped uid).matching step).filter (·.definition.source ≠ uid)).Perm
      ((l.matching step).filter (·.definition.source ≠ uid)) :=
    h.tree.wellFormed.perm_filter_exactMatches (h.dropped uid).tree.wellFormed hkept
      step.bindingType step.statement false
  rwa [List.filter_eq_self.2 fun m hm => decide_eq_true (hothers m hm)] at hperm

/-- A step that is bound to a definition of another source does not need this one. -/
theorem Consistent.bind_dropped (h : l.Consistent) {source : Option String} {b : Binding}
    (hbinding : (l.bind source step).1.binding = some b) (hne : b.definition.source ≠ uid) :
    (l.dropped uid).bind source step = l.bind source step := by
  obtain ⟨found, hmatching, rfl⟩ := exists_matching_of_binding hbinding
  have hperm := h.perm_matching_dropped uid step
  rw [hmatching, List.filter_singleton, decide_eq_true hne] at hperm
  have hmatching' : (l.dropped uid).matching step = [found] := List.perm_singleton.1 hperm
  simp only [bind, verdict, hmatching, hmatching', options_dropped]

theorem exists_binding_of_bound (hbound : (l.link file).2.bound = (l.link file).2.total)
    (hstep : step ∈ file.steps) :
    ∃ b, (l.bind file.name step).1.binding = some b ∧
      b.definition.source ∈ (l.link file).2.referenced := by
  have hsums := l.sums_link file
  have houtcome := List.mem_map_of_mem (f := l.bind file.name) hstep
  rw [hsums.bound, hsums.total, List.countP_eq_length] at hbound
  obtain ⟨b, hb⟩ := Option.isSome_iff_exists.1 (hbound _ houtcome)
  exact ⟨b, hb, (hsums.referenced _).2 ⟨_, houtcome, b, hb, rfl⟩⟩

end

/-- Once all steps of a file are bound, any source that is not referenced can be unregistered. The
file is linked as before then, whether it is linked as it was or as it was left. -/
theorem Reachable.link_without_unreferenced {l : Linker} (hl : l.Reachable) {file : TestFile}
    (hbound : (l.link file).2.bound = (l.link file).2.total) {uid : String}
    (hregistered : l.isRegistered uid = true) (hunused : uid ∉ (l.link file).2.referenced) :
    ∃ l', l.unregister uid = (.ok (l.tree.definitionsOf uid).length, l') ∧
      l'.link file = l.link file ∧ l'.link (l.link file).1 = l.link file := by
  have h := hl.consistent
  have hlink : (l.dropped uid).link file = l.link file := by
    refine link_eq_of_bind fun step hstep => ?_
    obtain ⟨b, hbinding, hsource⟩ := exists_binding_of_bound hbound hstep
    exact h.bind_dropped hbinding fun heq => hunused (heq ▸ hsource)
  refine ⟨l.dropped uid, ?_, hlink, ?_⟩
  · rw [h.unregister_eq, if_pos hregistered]
  · rw [link_congr _ (l.unbound_link file), hlink]

/-- The declarations of both sources begin alike, a step was bound to a definition of the one that
goes, and a table that is not asked for is an error without leaving its step unbound. -/
theorem link_without_unreferenced_cart :
    let native (declaration : String) : NativeStep :=
      ⟨.phase .action, declaration, declaration, .notSupported, none⟩
    let list : Source := .native "list" "list" [native "I add {name} twice", native "I add {name} to"]
    let cart : Source := .native "cart" "cart" [native "I add {count:int} items", native "I pay"]
    let l := (((new .standard).register list).2.register cart).2
    let step (text : String) (table : Option Table) : Step :=
      .ofText (.phase .action) (.phase .action) text ⟨1, 1⟩ table
    let stale : Binding :=
      ⟨⟨"list", .phase .action, "I add {name} twice", .optional, .native "list" none, none⟩, []⟩
    let file : TestFile :=
      { name := "cart.feature"
        feature := some
          { name := "cart", location := ⟨1, 1⟩, description := none
            background := some ⟨⟨1, 1⟩, [{ step "I add 3 items" none with binding := some stale }]⟩
            scenarios := [⟨"paying", ⟨1, 1⟩, [step "I pay" (some ⟨⟨9, 1⟩, ["by"], []⟩)], []⟩] }
        declared := [⟨.phase .action, "I buy", ⟨1, 1⟩, .optional, none, none,
          [step "I add 1 items" none]⟩] }
    l.Reachable ∧ (l.link file).2.bound = 3 ∧ (l.link file).2.total = 3 ∧
      (l.link file).2.referenced = ["cart"] ∧ l.isRegistered "list" = true ∧
      (l.link file).2.diagnostics.map (·.cause) = [.tableNotSupported "I pay"] ∧
      ∃ l', l.unregister "list" = (.ok (l.tree.definitionsOf "list").length, l') ∧
        l'.link file = l.link file ∧ l'.link (l.link file).1 = l.link file := by
  intro native list cart l step stale file
  have hl : l.Reachable := .register (.register (.new .standard) (.native _ _ _)) (.native _ _ _)
  have hresult : (l.isRegistered "list", (l.link file).2.bound, (l.link file).2.total,
      (l.link file).2.referenced, (l.link file).2.diagnostics.map (·.cause)) =
      (true, 3, 3, ["cart"], [.tableNotSupported "I pay"]) := by
    decide +kernel
  simp only [Prod.mk.injEq] at hresult
  obtain ⟨hregistered, hbound, htotal, hreferenced, hcauses⟩ := hresult
  have hunused : "list" ∉ (l.link file).2.referenced := by
    rw [hreferenced]
    decide
  exact ⟨hl, hbound, htotal, hreferenced, hregistered, hcauses,
    hl.link_without_unreferenced (hbound.trans htotal.symm) hregistered hunused⟩

end Linker

end StepLinker
