import StepLinker.Proofs.Linker.Tracking
import StepLinker.Proofs.Tree.Exact

/-!
# What the other sources notice

All sources share the nodes and the slots of one tree. Still, registering, updating and
unregistering one of them disturbs no other (`Undisturbed`): the others stay registered with their
keys, each key finds what it found, and steps match their definitions as before. The operations are
made of dropping and refreshing a source, so it is enough that these two disturb no other.
-/

namespace StepLinker

namespace MatchingTree

section
variable {t t' : MatchingTree} {P : Definition → Prop} [DecidablePred P]

theorem WellFormed.mem_filter_exactMatches (h : t.WellFormed) {phase : Phase}
    {statement : Statement} {allowPartial : Bool} {m : Match} :
    m ∈ (t.exactMatches (.phase phase) statement allowPartial).filter (P ·.definition) ↔
      ∃ k d, (t.get? k = some d ∧ P d) ∧ d.type = .phase phase ∧
        d.match? k statement.tokens = some m := by
  rw [List.mem_filter, h.mem_exactMatches, decide_eq_true_iff]
  constructor
  · rintro ⟨⟨k, d, hd, htype, hm⟩, hP⟩
    rw [Definition.definition_of_match? hm] at hP
    exact ⟨k, d, ⟨hd, hP⟩, htype, hm⟩
  · rintro ⟨k, d, ⟨hd, hP⟩, htype, hm⟩
    rw [Definition.definition_of_match? hm]
    exact ⟨⟨k, d, hd, htype, hm⟩, hP⟩

/-- Trees with the same definitions of some kind under the same keys match them alike. -/
theorem WellFormed.perm_filter_exactMatches (h : t.WellFormed) (h' : t'.WellFormed)
    (hsame : ∀ k d, P d → (t'.get? k = some d ↔ t.get? k = some d)) (type : StepType)
    (statement : Statement) (allowPartial : Bool) :
    ((t'.exactMatches type statement allowPartial).filter (P ·.definition)).Perm
      ((t.exactMatches type statement allowPartial).filter (P ·.definition)) := by
  cases type with
  | conjunction => exact .refl _
  | phase phase =>
    have hnodup := (t.nodup_exactMatches (.phase phase) statement allowPartial).of_map
    have hnodup' := (t'.nodup_exactMatches (.phase phase) statement allowPartial).of_map
    rw [List.perm_ext_iff_of_nodup (hnodup'.filter _) (hnodup.filter _)]
    intro m
    rw [h.mem_filter_exactMatches, h'.mem_filter_exactMatches]
    refine exists_congr fun k => exists_congr fun d => and_congr_left fun _ => ?_
    exact and_congr_left fun hP => hsame k d hP

end

end MatchingTree

namespace Linker

/-- No source but `uid` notices the change from `l` to `l'`. -/
structure Undisturbed (uid : String) (l l' : Linker) : Prop where
  registered : ∀ other, other ≠ uid → l'.registered.find? other = l.registered.find? other
  definitions : ∀ k d, d.source ≠ uid → (l'.tree.get? k = some d ↔ l.tree.get? k = some d)
  exactMatches : ∀ other, other ≠ uid → ∀ type statement allowPartial,
    ((l'.tree.exactMatches type statement allowPartial).filter (·.definition.source = other)).Perm
      ((l.tree.exactMatches type statement allowPartial).filter (·.definition.source = other))
  options : l'.options = l.options

section
variable {l l' l'' : Linker} {uid : String} {s : Source}

theorem Undisturbed.trans (h : Undisturbed uid l l') (h' : Undisturbed uid l' l'') :
    Undisturbed uid l l'' where
  registered other hne := (h'.registered other hne).trans (h.registered other hne)
  definitions k d hne := (h'.definitions k d hne).trans (h.definitions k d hne)
  exactMatches other hne type statement allowPartial :=
    (h'.exactMatches other hne type statement allowPartial).trans
      (h.exactMatches other hne type statement allowPartial)
  options := h'.options.trans h.options

theorem Consistent.undisturbed_of_kept (h : l.Consistent) (h' : l'.Consistent)
    (hregistered : ∀ other, other ≠ uid → l'.registered.find? other = l.registered.find? other)
    (hdefinitions : ∀ k d, d.source ≠ uid → (l'.tree.get? k = some d ↔ l.tree.get? k = some d))
    (hoptions : l'.options = l.options) : Undisturbed uid l l' := by
  refine ⟨hregistered, hdefinitions, fun other hne => ?_, hoptions⟩
  have hsame (k : SlotKey) (d : Definition) (hd : d.source = other) :
      l'.tree.get? k = some d ↔ l.tree.get? k = some d :=
    hdefinitions k d (hd ▸ hne)
  exact h.tree.wellFormed.perm_filter_exactMatches h'.tree.wellFormed hsame

theorem options_dropped (l : Linker) (uid : String) : (l.dropped uid).options = l.options := by
  unfold dropped unregister
  cases l.registered.find? uid <;> rfl

theorem Consistent.undisturbed_dropped (h : l.Consistent) (uid : String) :
    Undisturbed uid l (l.dropped uid) := by
  refine h.undisturbed_of_kept (h.dropped uid) (fun other hne => ?_) (fun k d hd => ?_)
    (options_dropped l uid)
  · rw [registered_dropped, Keyed.find?_erase, if_neg (Ne.symm hne)]
  · rw [h.get?_dropped]
    exact and_iff_left hd

theorem Consistent.undisturbed_refresh (h : l.Consistent) (hs : s.Shipped) :
    Undisturbed s.uid l (l.refresh s).2 := by
  have h' := h.refresh hs.genuine
  obtain ⟨r, hfinished, hrefresh⟩ := h.finished_refresh hs.genuine
  refine h.undisturbed_of_kept h' (fun other hne => ?_) ?_ (by rw [hrefresh])
  · rw [hrefresh, Keyed.find?_insert, Keyed.find?_erase, if_neg (Ne.symm hne),
      if_neg (Ne.symm hne)]
  · rw [hrefresh]
    exact hfinished.others

theorem Consistent.undisturbed_register (h : l.Consistent) (hs : s.Shipped) :
    Undisturbed s.uid l (l.register s).2 := by
  rw [register_eq]
  exact (h.undisturbed_dropped s.uid).trans ((h.dropped s.uid).undisturbed_refresh hs)

theorem Consistent.undisturbed_update (h : l.Consistent) (hs : s.Shipped) :
    Undisturbed s.uid l (l.update s).2 := by
  unfold Linker.update
  split
  · exact h.undisturbed_refresh hs
  · exact h.undisturbed_register hs

/-! ## How many definitions go with a source -/

theorem Consistent.length_definitionsOf (h : l.Consistent) {r : Registration}
    (hr : l.registered.find? uid = some r) :
    (l.tree.definitionsOf uid).length = r.keys.length := by
  have hentries : (((l.tree.definitions.entries.filter (·.2.definition.source = uid)).map
      (·.1))).Nodup :=
    (SlotMap.nodup_entries l.tree.definitions).sublist (List.filter_sublist.map _)
  have hkeys : (r.keys.map (·.2)).Perm
      ((l.tree.definitions.entries.filter (·.2.definition.source = uid)).map (·.1)) := by
    rw [List.perm_ext_iff_of_nodup (h.nodup_keys hr) hentries]
    intro k
    rw [h.mem_map_keys hr]
    simp [MatchingTree.get?_eq_some, SlotMap.mem_entries]
  have hlength := hkeys.length_eq
  rw [List.length_map, List.length_map] at hlength
  rw [hlength, MatchingTree.definitionsOf, List.filter_map, List.length_map]
  rfl

theorem Consistent.definitionsOf_dropped (h : l.Consistent) (uid : String) :
    (l.dropped uid).tree.definitionsOf uid = [] := by
  refine List.filter_eq_nil_iff.2 fun d hd => ?_
  obtain ⟨k, hk⟩ := MatchingTree.mem_live.1 hd
  simpa using ((h.get?_dropped uid k d).1 hk).2

theorem isRegistered_eq_false : l.isRegistered uid = false ↔ l.registered.find? uid = none := by
  unfold isRegistered Keyed.contains
  exact Option.isSome_eq_false_iff.trans Option.isNone_iff_eq_none

theorem isRegistered_dropped (l : Linker) (uid : String) :
    (l.dropped uid).isRegistered uid = false := by
  rw [isRegistered_eq_false, registered_dropped, Keyed.find?_erase, if_pos rfl]

/-- Unregistering takes out all definitions of the source and counts them. -/
theorem Consistent.unregister_eq (h : l.Consistent) (uid : String) :
    l.unregister uid = (if l.isRegistered uid then .ok (l.tree.definitionsOf uid).length
      else .error ⟨uid⟩, l.dropped uid) := by
  rcases hr : l.registered.find? uid with _ | r
  · rw [isRegistered_eq_false.2 hr]
    simp [Linker.unregister, dropped_of_not_registered hr, hr]
  · have hcount : (Refresh.removeAll l.tree (r.keys.map (·.2))).1 = r.keys.length := by
      rw [Refresh.fst_removeAll_of_live l.tree (h.nodup_keys hr), List.length_map]
      intro k hk
      obtain ⟨d, hd, -⟩ := (h.mem_map_keys hr).1 hk
      exact ⟨d, hd⟩
    simp [isRegistered, Keyed.contains, Linker.dropped, Linker.unregister, hr, hcount,
      h.length_definitionsOf hr]

end

/-- Registering, updating and unregistering a source disturb no other one. A source that is not
registered cannot be unregistered, and trying changes nothing; from one that is registered, all
definitions are taken out. -/
theorem Reachable.undisturbed {l : Linker} (hl : l.Reachable) (uid : String) :
    (∀ s, s.Shipped → s.uid = uid →
      Undisturbed uid l (l.register s).2 ∧ Undisturbed uid l (l.update s).2) ∧
    ((l.unregister uid).1 = .error ⟨uid⟩ ↔ l.isRegistered uid = false) ∧
    (l.isRegistered uid = false → l.unregister uid = (.error ⟨uid⟩, l)) ∧
    (l.isRegistered uid = true → ∃ l',
      l.unregister uid = (.ok (l.tree.definitionsOf uid).length, l') ∧ Undisturbed uid l l' ∧
        l'.isRegistered uid = false ∧ l'.tree.definitionsOf uid = []) := by
  have h := hl.consistent
  refine ⟨?_, ?_, fun hnot => ?_, fun hregistered => ?_⟩
  · rintro s hs rfl
    exact ⟨h.undisturbed_register hs, h.undisturbed_update hs⟩
  · rw [h.unregister_eq]
    cases l.isRegistered uid <;> simp
  · rw [h.unregister_eq, hnot, dropped_of_not_registered (isRegistered_eq_false.1 hnot)]
    rfl
  · refine ⟨l.dropped uid, ?_, h.undisturbed_dropped uid, isRegistered_dropped l uid,
      h.definitionsOf_dropped uid⟩
    rw [h.unregister_eq, if_pos hregistered]

/-- Two sources share the first nodes of their paths, and one of them is unregistered. -/
theorem undisturbed_greetings :
    let step (declaration : String) : NativeStep :=
      ⟨.phase .action, declaration, declaration, .optional, none⟩
    let hello : Source := .native "hello" "hello" [step "I greet {who}", step "I greet {who} back"]
    let bye : Source := .native "bye" "bye" [step "I greet {who} again", step "I leave"]
    let l := ((((new .standard).register hello).2.register bye).2)
    l.Reachable ∧ l.isRegistered "hello" = true ∧ l.isRegistered "door" = false ∧
      l.unregister "door" = (.error ⟨"door"⟩, l) ∧
      ∃ l', l.unregister "hello" = (.ok 2, l') ∧ Undisturbed "hello" l l' ∧
        l'.tree.definitionsOf "hello" = [] ∧
        (l'.tree.exactMatches (.phase .action) (.ofText "I greet you again") false).map (·.key) =
          [⟨2, 0⟩] := by
  intro step hello bye l
  have hl : l.Reachable := .register (.register (.new .standard) (.native _ _ _)) (.native _ _ _)
  have hhello : l.isRegistered "hello" = true := by decide +kernel
  have hdoor : l.isRegistered "door" = false := by decide +kernel
  have hcount : (l.tree.definitionsOf "hello").length = 2 := by decide +kernel
  have hkeys : ((l.dropped "hello").tree.exactMatches (.phase .action)
      (.ofText "I greet you again") false).map (·.key) = [⟨2, 0⟩] := by decide +kernel
  obtain ⟨-, -, hnot, -⟩ := hl.undisturbed "door"
  obtain ⟨-, -, -, hok⟩ := hl.undisturbed "hello"
  obtain ⟨l', hunregister, hundisturbed, -, hnone⟩ := hok hhello
  have hl' : l.dropped "hello" = l' := by
    rw [dropped, hunregister]
  rw [hcount] at hunregister
  exact ⟨hl, hhello, hdoor, hnot hdoor, l', hunregister, hundisturbed, hnone, hl' ▸ hkeys⟩

end Linker

end StepLinker
