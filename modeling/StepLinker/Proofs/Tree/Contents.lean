import StepLinker.Proofs.Tree.Invariant

/-!
# What a tree holds

A linker sees a tree through `get?`: the definition under each key; `live` lists what it finds. The
lemmas here say what an operation does to that view, with the forest left out, and that the tree
stays reachable. A definition that is new to its source goes under a key that was not in use
(`Reachable.addOrUpdate_new`); why one is refused depends on the definition alone
(`Definition.refusal?`), and so does whether it is (`Definition.isAcceptable`).
-/

namespace StepLinker

/-- Why the definition is not taken in, if it is not. An invalid declaration is noticed first. -/
def Definition.refusal? (d : Definition) : Option DefinitionError :=
  match d.pattern, d.type with
  | .error e, _ => some (.invalidDeclaration e)
  | .ok _, .conjunction => some (.unboundType .conjunction)
  | .ok _, .phase _ => none

theorem Definition.refusal?_eq_none {d : Definition} :
    d.refusal? = none ↔ ∃ phase p, d.place? = some (phase, p) := by
  rcases hp : d.pattern with error | p <;> rcases ht : d.type with phase | _ <;>
    simp [refusal?, place?, hp, ht]

theorem Definition.refusal?_of_ok {d : Definition} {p : Pattern} (hp : d.pattern = .ok p) :
    d.refusal? = if d.type = .conjunction then some (.unboundType .conjunction) else none := by
  rcases ht : d.type with phase | _ <;> simp [refusal?, hp, ht]

theorem Definition.pattern_of_accepted {d : Definition} (h : d.refusal? = none) :
    ∃ p, d.pattern = .ok p := by
  rcases hp : d.pattern with error | p
  · simp [refusal?, hp] at h
  · exact ⟨p, rfl⟩

theorem Definition.type_ne_conjunction {d : Definition} (h : d.refusal? = none) :
    d.type ≠ .conjunction := by
  obtain ⟨p, hp⟩ := pattern_of_accepted h
  intro htype
  rw [refusal?_of_ok hp, if_pos htype] at h
  cases h

/-- Whether the definition has a phase and a declaration that compiles. -/
def Definition.isAcceptable (d : Definition) : Bool :=
  decide (d.type ≠ .conjunction) && (Pattern.ofDeclaration d.declaration).isOk

theorem Definition.isAcceptable_iff {d : Definition} (hd : d.Compiled) :
    d.isAcceptable = true ↔ d.refusal? = none := by
  unfold isAcceptable refusal?
  rw [← hd]
  rcases d.pattern with error | p <;> rcases d.type with phase | _ <;>
    simp [Except.isOk, Except.toBool]

namespace MatchingTree

def live (t : MatchingTree) : List Definition :=
  t.definitions.entries.map (·.2.definition)

section
variable {t t' : MatchingTree} {k : SlotKey} {d old : Definition}

theorem get?_eq_some : t.get? k = some d ↔
    ∃ e, t.definitions.get? k = some e ∧ e.definition = d :=
  Option.map_eq_some_iff

theorem mem_live : d ∈ t.live ↔ ∃ k, t.get? k = some d := by
  simp [live, get?_eq_some, SlotMap.mem_entries]

theorem WellFormed.length_live (h : t.WellFormed) : t.live.length = t.definitionCount := by
  rw [live, List.length_map]
  exact SlotMap.length_entries h.slots

theorem nodup_live (hinj : ∀ k k' d, t.get? k = some d → t.get? k' = some d → k = k') :
    t.live.Nodup := by
  refine (SlotMap.nodup_entries t.definitions).of_map.map_on ?_
  rintro ⟨k, e⟩ he ⟨k', e'⟩ he' (hd : e.definition = e'.definition)
  have he := SlotMap.mem_entries.1 he
  have he' := SlotMap.mem_entries.1 he'
  obtain rfl : k = k' :=
    hinj k k' _ (get?_eq_some.2 ⟨e, he, rfl⟩) (get?_eq_some.2 ⟨e', he', hd.symm⟩)
  rw [he] at he'
  cases he'
  rfl

theorem get?_empty (k : SlotKey) : empty.get? k = none := by
  simp [get?, empty]

theorem Reachable.refusal?_eq_none (ht : t.Reachable) (hd : t.get? k = some d) :
    d.refusal? = none := by
  obtain ⟨e, he, rfl⟩ := get?_eq_some.1 hd
  obtain ⟨phase, p, hplace, -⟩ := ht.wellFormed.exists_place? he
  exact Definition.refusal?_eq_none.2 ⟨phase, p, hplace⟩

theorem Reachable.type_ne_conjunction (ht : t.Reachable) (hd : t.get? k = some d) :
    d.type ≠ .conjunction :=
  Definition.type_ne_conjunction (ht.refusal?_eq_none hd)

/-! ## Replacing -/

theorem get?_put (hold : t.get? k = some old) (d : Definition) (s : Specificity) (k' : SlotKey) :
    (t.put k d s).get? k' = if k' = k then some d else t.get? k' := by
  obtain ⟨e, he, -⟩ := get?_eq_some.1 hold
  unfold get? put
  rw [SlotMap.get?_modify, he]
  by_cases hk : k' = k
  · simp [hk]
  · simp [hk]

theorem replace_of_get? (hold : t.get? k = some old) (d : Definition) :
    ∃ t', t.replace k d = (some old, t') ∧
      ∀ k', t'.get? k' = if k' = k then some d else t.get? k' := by
  obtain ⟨e, he, rfl⟩ := get?_eq_some.1 hold
  exact ⟨_, replace_of_entry he d, get?_put hold d _⟩

theorem replace_eq_none : t.replace k d = (none, t) ↔ t.get? k = none := by
  refine ⟨fun hr => ?_, fun hnone => replace_of_none hnone d⟩
  cases hold : t.get? k with
  | none => rfl
  | some old =>
    obtain ⟨t', hr', -⟩ := replace_of_get? hold d
    rw [hr] at hr'
    cases hr'

theorem Reachable.replace (ht : t.Reachable) (hold : t.get? k = some old) (hd : d.Compiled)
    (hs : old.signature = d.signature) (hr : t.replace k d = (some old, t')) :
    t'.Reachable := by
  have hstep : t.run (.replace k d) = t' := congrArg Prod.snd hr
  rw [← hstep]
  refine .step _ ht ⟨hd, fun old' hold' => ?_⟩
  rw [hold] at hold'
  cases hold'
  exact hs

/-! ## Removing -/

theorem remove_of_get? (hd : t.get? k = some d) : ∃ t', t.remove k = (some d, t') ∧
    ∀ k', t'.get? k' = if k' = k then none else t.get? k' := by
  obtain ⟨e, he, rfl⟩ := get?_eq_some.1 hd
  have herase := SlotMap.erase_eq_some.2 ⟨he, rfl⟩
  refine ⟨_, remove_eq_some.2 ⟨e, _, herase, rfl, rfl⟩, fun k' => ?_⟩
  unfold get?
  rw [SlotMap.get?_erase herase]
  split <;> rfl

theorem remove_eq_none : t.remove k = (none, t) ↔ t.get? k = none := by
  refine ⟨fun hr => ?_, remove_of_none⟩
  cases hd : t.get? k with
  | none => rfl
  | some d =>
    obtain ⟨t', hr', -⟩ := remove_of_get? hd
    rw [hr] at hr'
    cases hr'

/-! ## Adding -/

/-- A version of a definition that stands on its path has its signature. -/
theorem WellFormed.signature_of_holds (h : t.WellFormed) {phase : Phase} {p : Pattern}
    (hplace : d.place? = some (phase, p)) (hmem : k ∈ t.keysAt phase p.edges)
    (hk : t.Holds k d) :
    ∃ old, t.get? k = some old ∧ old.source = d.source ∧ old.signature = d.signature := by
  obtain ⟨e, he, hsource, hsame⟩ := hk
  have hold : t.get? k = some e.definition := get?_eq_some.2 ⟨e, he, rfl⟩
  refine ⟨e.definition, hold, hsource, ?_⟩
  -- generated definitions are told apart without their type, but the phase gives it
  have htype : e.definition.type = d.type := by
    obtain ⟨old, p', hold', hplace', -⟩ := h.mem_keysAt.1 hmem
    rw [hold] at hold'
    cases hold'
    rw [(Definition.place?_eq_some.1 hplace).1, (Definition.place?_eq_some.1 hplace').1]
  have hdeclaration : e.definition.declaration = d.declaration := by
    unfold Definition.isSame at hsame
    split at hsame <;> simp_all
  unfold Definition.signature
  rw [htype, hdeclaration]

theorem get?_graft (h : t.WellFormed) (phase : Phase) (p : Pattern) (d : Definition) :
    t.get? (t.graft phase p d).1 = none ∧ ∀ k, (t.graft phase p d).2.get? k =
      if k = (t.graft phase p d).1 then some d else t.get? k := by
  refine ⟨?_, fun k => ?_⟩
  · unfold get? graft attach
    rw [SlotMap.get?_insert_fst h.slots]
    rfl
  · unfold get? graft attach
    rw [SlotMap.get?_insert h.slots]
    split <;> rfl

/-- A definition that its source does not have yet goes under a key of its own. -/
theorem Reachable.addOrUpdate_new (ht : t.Reachable) (hd : d.Compiled)
    (haccepted : d.refusal? = none)
    (hnew : ∀ k old, t.get? k = some old → old.source = d.source → old.signature ≠ d.signature) :
    ∃ k t', t.addOrUpdate d = (.ok k, t') ∧ t'.Reachable ∧ t.get? k = none ∧
      ∀ k', t'.get? k' = if k' = k then some d else t.get? k' := by
  have h := ht.wellFormed
  obtain ⟨phase, p, hplace⟩ := Definition.refusal?_eq_none.1 haccepted
  rcases h.addOrUpdate_cases d with ⟨hno, -⟩ | ⟨phase', p', hplace', hcases⟩
  · rw [hplace] at hno
    cases hno
  · rw [hplace] at hplace'
    cases hplace'
    rcases hcases with ⟨k, hmem, hholds, -⟩ | ⟨-, hadd⟩
    · obtain ⟨old, hold, hsource, hs⟩ := h.signature_of_holds hplace hmem hholds
      exact absurd hs (hnew k old hold hsource)
    · obtain ⟨hfree, hget⟩ := get?_graft h phase p d
      refine ⟨_, _, hadd, ?_, hfree, hget⟩
      rw [show (t.graft phase p d).2 = t.run (.addOrUpdate d) by rw [run, hadd]]
      exact .step _ ht hd

theorem addOrUpdate_conjunction (ht : d.type = .conjunction) :
    t.addOrUpdate d = (.error (.unboundType .conjunction), t) := by
  simp [addOrUpdate, ht, StepType.phase?]

end

end MatchingTree

end StepLinker
