import StepLinker.Proofs.Linker.Binding

/-!
# The order of registration

A source that is registered or updated puts in the tree what it supplies (`Source.Supplies`) and
leaves alone what belongs to others. So after any number of such calls for distinct sources the tree
holds what they supply and nothing else (`live_callAll_new`), in whichever order they came, and
linkers with the same definitions bind every step alike.
-/

namespace StepLinker

/-- The source has the definition once it is registered. -/
def Source.Supplies (s : Source) (d : Definition) : Prop :=
  d.source = s.uid ∧ Definition.latest? s.definitions d.signature = some d

namespace Linker

inductive Call where
  | register (s : Source)
  | update (s : Source)

def Call.source : Call → Source
  | register s => s
  | update s => s

def call (l : Linker) : Call → Linker
  | .register s => (l.register s).2
  | .update s => (l.update s).2

def callAll (l : Linker) (calls : List Call) : Linker :=
  calls.foldl call l

section
variable {l : Linker} {s : Source} {calls : List Call}

/-! ## One call -/

theorem options_register (l : Linker) (s : Source) : (l.register s).2.options = l.options := by
  unfold register unregister
  cases l.registered.find? s.uid <;> rfl

theorem options_update (l : Linker) (s : Source) : (l.update s).2.options = l.options := by
  unfold update
  split
  · rfl
  · exact l.options_register s

theorem options_call (l : Linker) (c : Call) : (l.call c).options = l.options := by
  cases c with
  | register s => exact l.options_register s
  | update s => exact l.options_update s

theorem Consistent.live_refresh (h : l.Consistent) (hs : s.Shipped) (d : Definition) :
    d ∈ (l.refresh s).2.tree.live ↔
      s.Supplies d ∨ d ∈ l.tree.live ∧ d.source ≠ s.uid := by
  rw [h.mem_live_refresh hs, Source.Supplies]
  split
  · next hd => simp [hd]
  · next hd => simp [hd]

theorem Consistent.live_register (h : l.Consistent) (hs : s.Shipped) (d : Definition) :
    d ∈ (l.register s).2.tree.live ↔
      s.Supplies d ∨ d ∈ l.tree.live ∧ d.source ≠ s.uid := by
  rw [register_eq, (h.dropped s.uid).live_refresh hs, h.mem_live_dropped, and_assoc, and_self]

theorem Consistent.live_update (h : l.Consistent) (hs : s.Shipped) (d : Definition) :
    d ∈ (l.update s).2.tree.live ↔
      s.Supplies d ∨ d ∈ l.tree.live ∧ d.source ≠ s.uid := by
  unfold Linker.update
  split
  · exact h.live_refresh hs d
  · exact h.live_register hs d

theorem Consistent.call (h : l.Consistent) {c : Call} (hc : c.source.Shipped) :
    (l.call c).Consistent := by
  cases c with
  | register s => exact h.register hc.genuine
  | update s => exact h.update hc.genuine

theorem Consistent.live_call (h : l.Consistent) {c : Call} (hc : c.source.Shipped)
    (d : Definition) : d ∈ (l.call c).tree.live ↔
      c.source.Supplies d ∨ d ∈ l.tree.live ∧ d.source ≠ c.source.uid := by
  cases c with
  | register s => exact h.live_register hc d
  | update s => exact h.live_update hc d

/-! ## Several calls -/

theorem options_callAll (l : Linker) (calls : List Call) :
    (l.callAll calls).options = l.options := by
  induction calls generalizing l with
  | nil => rfl
  | cons c calls ih => exact (ih (l.call c)).trans (l.options_call c)

theorem Consistent.callAll (h : l.Consistent) (hcalls : ∀ c ∈ calls, c.source.Shipped) :
    (l.callAll calls).Consistent := by
  induction calls generalizing l with
  | nil => exact h
  | cons c calls ih =>
    obtain ⟨hc, hcalls⟩ := List.forall_mem_cons.1 hcalls
    exact ih (h.call hc) hcalls

/-- After calls for distinct sources the tree holds what they supply, and what was there before and
belongs to others. -/
theorem Consistent.live_callAll (h : l.Consistent) (hcalls : ∀ c ∈ calls, c.source.Shipped)
    (huids : (calls.map (·.source.uid)).Nodup) (d : Definition) :
    d ∈ (l.callAll calls).tree.live ↔ (∃ c ∈ calls, c.source.Supplies d) ∨
      d ∈ l.tree.live ∧ ∀ c ∈ calls, d.source ≠ c.source.uid := by
  induction calls generalizing l with
  | nil => simp [Linker.callAll]
  | cons c calls ih =>
    obtain ⟨hc, hcalls⟩ := List.forall_mem_cons.1 hcalls
    obtain ⟨hnew, huids⟩ := List.nodup_cons.1 huids
    -- later calls are about other sources and leave what this one supplies
    have hstays (hd : c.source.Supplies d) : ∀ c' ∈ calls, d.source ≠ c'.source.uid := by
      intro c' hc' hsource
      exact hnew (List.mem_map.2 ⟨c', hc', hsource.symm.trans hd.1⟩)
    rw [show l.callAll (c :: calls) = (l.call c).callAll calls from rfl,
      ih (h.call hc) hcalls huids, h.live_call hc, List.exists_mem_cons_iff,
      List.forall_mem_cons]
    constructor
    · rintro (hlater | ⟨hd | ⟨hd, hne⟩, hothers⟩)
      · exact .inl (.inr hlater)
      · exact .inl (.inl hd)
      · exact .inr ⟨hd, hne, hothers⟩
    · rintro ((hd | hlater) | ⟨hd, hne, hothers⟩)
      · exact .inr ⟨.inl hd, hstays hd⟩
      · exact .inl hlater
      · exact .inr ⟨.inr ⟨hd, hne⟩, hothers⟩

/-- Calls that bring in each of the sources once make a linker with what they supply. -/
theorem live_callAll_new (options : LinkerOptions) {sources : List Source}
    (hshipped : ∀ s ∈ sources, s.Shipped) (huids : (sources.map (·.uid)).Nodup)
    (hcalls : (calls.map (·.source)).Perm sources) :
    ((new options).callAll calls).Consistent ∧
      ∀ d, d ∈ ((new options).callAll calls).tree.live ↔ ∃ s ∈ sources, s.Supplies d := by
  have hnew := consistent_new options
  have hmem (c : Call) (hc : c ∈ calls) : c.source.Shipped :=
    hshipped _ (hcalls.mem_iff.1 (List.mem_map_of_mem hc))
  have hnodup : (calls.map (·.source.uid)).Nodup := by
    have hcallUids := hcalls.map (·.uid)
    rw [List.map_map] at hcallUids
    exact hcallUids.nodup_iff.2 huids
  refine ⟨hnew.callAll hmem, fun d => ?_⟩
  have hempty : d ∉ (new options).tree.live := by
    rw [MatchingTree.mem_live]
    rintro ⟨k, hk⟩
    rw [show (new options).tree = .empty from rfl, MatchingTree.get?_empty] at hk
    cases hk
  rw [hnew.live_callAll hmem hnodup]
  simp only [hempty, false_and, or_false]
  constructor
  · rintro ⟨c, hc, hd⟩
    exact ⟨c.source, hcalls.mem_iff.1 (List.mem_map_of_mem hc), hd⟩
  · rintro ⟨s, hs, hd⟩
    obtain ⟨c, hc, rfl⟩ := List.mem_map.1 (hcalls.mem_iff.2 hs)
    exact ⟨c, hc, hd⟩

end

/-- In whichever order sources are registered or updated, the trees are of the same size and every
step is bound alike. -/
theorem callAll_alike (options : LinkerOptions) {sources : List Source}
    (hshipped : ∀ s ∈ sources, s.Shipped) (huids : (sources.map (·.uid)).Nodup)
    {calls calls' : List Call} (hcalls : (calls.map (·.source)).Perm sources)
    (hcalls' : (calls'.map (·.source)).Perm sources) :
    let l := (new options).callAll calls
    let l' := (new options).callAll calls'
    l.tree.nodeCount = l'.tree.nodeCount ∧ l.tree.definitionCount = l'.tree.definitionCount ∧
      ∀ source step, SameOutcome (l.bind source step) (l'.bind source step) := by
  intro l l'
  obtain ⟨h, hlive⟩ := live_callAll_new options hshipped huids hcalls
  obtain ⟨h', hlive'⟩ := live_callAll_new options hshipped huids hcalls'
  have hsame (d : Definition) : d ∈ l.tree.live ↔ d ∈ l'.tree.live :=
    (hlive d).trans (hlive' d).symm
  have hoptions : l.options = l'.options :=
    (options_callAll _ calls).trans (options_callAll _ calls').symm
  exact ⟨h.tree.wellFormed.nodeCount_congr h'.tree.wellFormed hsame,
    h.definitionCount_congr h' hsame, h.sameOutcome_bind h' hoptions hsame⟩

/-- A file and two handlers whose definitions share their first word, brought in both ways round and
by different calls. -/
theorem callAll_alike_visit :
    let file : Source := .ofFile ⟨"visits", none,
      [⟨.phase .action, "I greet {who}", ⟨1, 1⟩, .optional, none, none, []⟩]⟩
    let handlers : Source := .native "native" "handlers"
      [⟨.phase .action, "I wave '{times:int}' times", "wave", .optional, none⟩,
        ⟨.phase .action, "I greet", "greet", .optional, none⟩]
    let l := ((new .standard).callAll [.register file, .update handlers])
    let l' := ((new .standard).callAll [.register handlers, .register file])
    let step : Step := .ofText (.phase .action) (.phase .action) "I wave 'two' times" ⟨1, 1⟩ none
    l.tree.nodeCount = l'.tree.nodeCount ∧ SameOutcome (l.bind none step) (l'.bind none step) ∧
      l.tree.nodeCount = 9 ∧ (l.bind none step).1.binding ≠ none ∧
      (l.bind none step).2.map (·.cause.code) = [.typeNotCompatible] := by
  intro file handlers l l' step
  have hshipped : ∀ s ∈ [file, handlers], s.Shipped := by
    simp only [List.forall_mem_cons]
    exact ⟨.ofFile _ (by simp), .native _ _ _, by simp⟩
  have hcalls : ([.register file, .update handlers].map Call.source).Perm [file, handlers] :=
    .refl _
  have hcalls' : ([.register handlers, .register file].map Call.source).Perm [file, handlers] :=
    .swap _ _ _
  obtain ⟨hnodes, -, hbind⟩ := callAll_alike .standard hshipped (by decide) hcalls hcalls'
  exact ⟨hnodes, hbind none step, by decide +kernel, by decide +kernel, by decide +kernel⟩

end Linker

end StepLinker
