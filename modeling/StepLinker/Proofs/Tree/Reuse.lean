import StepLinker.Proofs.Tree.Lookup
import Mathlib.Algebra.Group.Nat.Defs

/-!
# Keys and the reuse of slots

A key that has been removed finds nothing, however many definitions come into its slot and go out of
it again: each removal moves the slot on to its next generation. Generations are 32-bit words,
though, and wrap. `generation?_runAll` counts the removals along a run: a removed key comes back to
life exactly when the number of definitions taken out of its slot, the first one included, is a
multiple of `2 ^ 32` and the slot is in use (`removed_dead_until_wrap`). Then it finds whatever is
there (`removed_comes_back`).
-/

namespace StepLinker.MatchingTree

def runAll (t : MatchingTree) (ops : List Operation) : MatchingTree :=
  ops.foldl run t

/-- The key whose definition the call takes out. -/
def removed? (t : MatchingTree) : Operation → Option SlotKey
  | .addOrUpdate _ => none
  | .replace _ _ => none
  | .remove k => if (t.get? k).isSome then some k else none
  | .removeDefinition d => t.find? d

/-- How many definitions the calls take out of the slot. -/
def removals (slot : Nat) (t : MatchingTree) : List Operation → Nat
  | [] => 0
  | op :: ops => ((t.removed? op).any (·.slot = slot)).toNat + removals slot (t.run op) ops

section
variable {t : MatchingTree} {op : Operation} {k : SlotKey}

/-! ## One call -/

theorem find?_eq_some {d : Definition} (h : t.find? d = some k) : t.Holds k d := by
  unfold find? at h
  split at h
  · obtain ⟨id, -, hk⟩ := Option.bind_eq_some_iff.1 h
    exact (findAt_eq_some hk).2
  · cases h

theorem remove_of_removed? (h : t.removed? op = some k) :
    ∃ d, t.remove k = (some d, t.run op) := by
  cases op with
  | addOrUpdate d => cases h
  | replace k' d => cases h
  | remove k' =>
    simp only [removed?, Option.ite_none_right_eq_some, Option.some.injEq] at h
    obtain ⟨hlive, rfl⟩ := h
    obtain ⟨d, hd⟩ := Option.isSome_iff_exists.1 hlive
    obtain ⟨t', hremove, -⟩ := remove_of_get? hd
    exact ⟨d, by rw [run, hremove]⟩
  | removeDefinition d =>
    have hfind : t.find? d = some k := h
    obtain ⟨e, he, -⟩ := find?_eq_some hfind
    obtain ⟨t', hremove, -⟩ := remove_of_get? (get?_eq_some.2 ⟨e, he, rfl⟩)
    exact ⟨e.definition, by simp only [run, removeDefinition, hfind, hremove]⟩

theorem generation?_run_of_none {slot : Nat} {g : UInt32} (h : t.removed? op = none)
    (hg : t.definitions.generation? slot = some g) :
    (t.run op).definitions.generation? slot = some g := by
  have hput (t' : MatchingTree) (ht' : t'.definitions = t.definitions) (k : SlotKey)
      (d : Definition) (s : Specificity) :
      (t'.put k d s).definitions.generation? slot = some g := by
    rw [← hg, ← ht']
    exact SlotMap.generation?_modify _ _ _ _
  cases op with
  | addOrUpdate d =>
    cases hplace : d.place? with
    | none =>
      obtain ⟨error, hadd⟩ := addOrUpdate_of_not_place? (t := t) hplace
      rw [run, hadd]
      exact hg
    | some place =>
      rcases addOrUpdate_of_place? (t := t) hplace with ⟨k, -, hadd⟩ | ⟨-, hadd⟩
      · rw [run, hadd]
        exact hput _ rfl k d _
      · rw [run, hadd]
        exact SlotMap.generation?_insert hg _
  | replace k d =>
    cases hr : t.definitions.get? k with
    | none => simpa [run, replace, hr] using hg
    | some e =>
      rw [run, replace_of_entry hr]
      exact hput t rfl k d _
  | remove k =>
    have hdead : t.get? k = none := by
      simpa [removed?] using h
    rw [run, remove_eq_none.2 hdead]
    exact hg
  | removeDefinition d =>
    have hfind : t.find? d = none := h
    simpa only [run, removeDefinition, hfind] using hg

/-- A call moves a slot on by one generation if it takes a definition out of it. -/
theorem generation?_run {slot : Nat} {g : UInt32} (op : Operation)
    (hg : t.definitions.generation? slot = some g) :
    (t.run op).definitions.generation? slot =
      some (g + UInt32.ofNat ((t.removed? op).any (·.slot = slot)).toNat) := by
  rcases hop : t.removed? op with _ | k
  · simpa using generation?_run_of_none hop hg
  · obtain ⟨d, hremove⟩ := remove_of_removed? hop
    obtain ⟨e, definitions, herase, -, hrun⟩ := remove_eq_some.1 hremove
    have hgeneration : (t.run op).definitions.generation? slot =
        if slot = k.slot then some (k.generation + 1) else t.definitions.generation? slot := by
      rw [hrun]
      exact SlotMap.generation?_erase herase slot
    rw [hgeneration]
    by_cases hslot : slot = k.slot
    · subst hslot
      rw [SlotMap.generation?_of_get? (SlotMap.erase_eq_some.1 herase).1] at hg
      cases hg
      simp
    · simp [hslot, Ne.symm hslot, hg]

/-! ## Runs -/

/-- A run moves a slot on by one generation for each definition that it takes out of it. -/
theorem generation?_runAll {slot : Nat} {g : UInt32} (ops : List Operation)
    (hg : t.definitions.generation? slot = some g) :
    (t.runAll ops).definitions.generation? slot =
      some (g + UInt32.ofNat (t.removals slot ops)) := by
  induction ops generalizing t g with
  | nil => simpa [runAll, removals] using hg
  | cons op ops ih =>
    rw [removals, UInt32.ofNat_add, ← UInt32.add_assoc]
    exact ih (generation?_run op hg)

/-- The slot of a live key moves on to other generations and comes back to the one of the key after
`2 ^ 32` removals. -/
theorem generation?_runAll_of_get? {d : Definition} (hd : t.get? k = some d)
    (ops : List Operation) :
    (t.runAll ops).definitions.generation? k.slot = some k.generation ↔
      2 ^ 32 ∣ t.removals k.slot ops := by
  obtain ⟨e, he, -⟩ := get?_eq_some.1 hd
  rw [generation?_runAll ops (SlotMap.generation?_of_get? he), Option.some.injEq,
    UInt32.add_eq_left, ← UInt32.toNat_inj, UInt32.toNat_ofNat']
  exact Nat.dvd_iff_mod_eq_zero.symm

/-- A removed key stays dead until `2 ^ 32` definitions have been taken out of its slot, the one
under the key included. It finds something again exactly when their number is a multiple of
`2 ^ 32` and the slot is in use. -/
theorem removed_dead_until_wrap (hop : t.removed? op = some k) (ops : List Operation) :
    let t' := (t.run op).runAll ops
    (t.removals k.slot (op :: ops) < 2 ^ 32 →
      t'.get? k = none ∧ (∀ d, t'.replace k d = (none, t')) ∧ t'.remove k = (none, t')) ∧
    (t'.get? k ≠ none ↔
      2 ^ 32 ∣ t.removals k.slot (op :: ops) ∧ ∃ g, t'.get? ⟨k.slot, g⟩ ≠ none) := by
  intro t'
  obtain ⟨d, hremove⟩ := remove_of_removed? hop
  have hlive : t.get? k = some d := by
    obtain ⟨e, _, herase, hd, -⟩ := remove_eq_some.1 hremove
    exact get?_eq_some.2 ⟨e, (SlotMap.erase_eq_some.1 herase).1, hd⟩
  have hgeneration : t'.definitions.generation? k.slot = some k.generation ↔
      2 ^ 32 ∣ t.removals k.slot (op :: ops) := generation?_runAll_of_get? hlive (op :: ops)
  have hfound : t'.get? k ≠ none → 2 ^ 32 ∣ t.removals k.slot (op :: ops) := by
    intro hfound
    obtain ⟨d', hd'⟩ := Option.ne_none_iff_exists'.1 hfound
    obtain ⟨e, he, -⟩ := get?_eq_some.1 hd'
    exact hgeneration.1 (SlotMap.generation?_of_get? he)
  refine ⟨fun hfew => ?_, fun h => ⟨hfound h, k.generation, h⟩, fun ⟨hwrapped, g, hg⟩ => ?_⟩
  · have hpositive : 0 < t.removals k.slot (op :: ops) := by
      simp only [removals, hop, Option.any_some, decide_true, Bool.toNat_true]
      omega
    have hdead : t'.get? k = none := by
      by_contra h
      exact Nat.not_le_of_lt hfew (Nat.le_of_dvd hpositive (hfound h))
    exact ⟨hdead, fun d => replace_eq_none.2 hdead, remove_eq_none.2 hdead⟩
  · -- the slot is in the generation of the key, so no other key finds what it holds
    obtain ⟨d', hd'⟩ := Option.ne_none_iff_exists'.1 hg
    obtain ⟨e, he, -⟩ := get?_eq_some.1 hd'
    have hsame := (SlotMap.generation?_of_get? he).symm.trans (hgeneration.2 hwrapped)
    obtain rfl : g = k.generation := Option.some.inj hsame
    exact hg

end

/-- The key of a definition that has been removed is dead, though another one is in its slot. -/
theorem removed_dead_until_wrap_knock :
    let knock (handler : String) : Definition :=
      ⟨"door", .phase .action, "I knock", .optional, .native handler none, none⟩
    let t := empty.run (.addOrUpdate (knock "front"))
    let ops : List Operation := [.addOrUpdate (knock "back"), .removeDefinition (knock "back"),
      .addOrUpdate (knock "side")]
    let t' := (t.run (.remove ⟨0, 0⟩)).runAll ops
    t.removed? (.remove ⟨0, 0⟩) = some ⟨0, 0⟩ ∧ t.removals 0 (.remove ⟨0, 0⟩ :: ops) = 2 ∧
      t'.get? ⟨0, 2⟩ = some (knock "side") ∧
      t'.get? ⟨0, 0⟩ = none ∧ (∀ d, t'.replace ⟨0, 0⟩ d = (none, t')) ∧
      t'.remove ⟨0, 0⟩ = (none, t') := by
  intro knock t ops t'
  have hop : t.removed? (.remove ⟨0, 0⟩) = some ⟨0, 0⟩ := by decide +kernel
  have hcount : t.removals 0 (.remove ⟨0, 0⟩ :: ops) = 2 := by decide +kernel
  refine ⟨hop, hcount, by decide +kernel, ?_⟩
  exact (removed_dead_until_wrap hop ops).1 (by rw [hcount]; decide)

/-! ## A key that comes back -/

/-- The tree is empty again, with one slot in the generation `g`. -/
structure Vacated (t : MatchingTree) (g : UInt32) : Prop where
  reachable : t.Reachable
  definitions : t.definitions = ⟨#[⟨g, none⟩], [0], 0⟩

/-- The tree has one definition, in a slot in the generation `g`. -/
structure Occupied (t : MatchingTree) (g : UInt32) (d : Definition) : Prop where
  reachable : t.Reachable
  definitions : ∃ e, e.definition = d ∧ t.definitions = ⟨#[⟨g, some e⟩], [], 1⟩

section
variable {t : MatchingTree} {d : Definition} {g : UInt32}

theorem Occupied.get?_iff (h : t.Occupied g d) {k : SlotKey} {d' : Definition} :
    t.get? k = some d' ↔ k = ⟨0, g⟩ ∧ d' = d := by
  obtain ⟨e, rfl, hdefinitions⟩ := h.definitions
  obtain ⟨slot, generation⟩ := k
  rw [get?_eq_some, hdefinitions]
  simp only [SlotMap.get?_eq_some, SlotKey.mk.injEq]
  cases slot <;> simp [eq_comm, and_assoc]

theorem Reachable.definitions_add (ht : t.Reachable) (hbare : ∀ k, t.get? k = none)
    (hd : d.Compiled) (haccepted : d.refusal? = none) :
    ∃ e, e.definition = d ∧ (t.run (.addOrUpdate d)).definitions = (t.definitions.insert e).2 := by
  obtain ⟨phase, p, hplace⟩ := Definition.refusal?_eq_none.1 haccepted
  rcases ht.wellFormed.addOrUpdate_cases_present hd hplace with ⟨k, hversion, -⟩ | ⟨-, hadd⟩
  · obtain ⟨old, hold⟩ := hversion.exists_get?
    rw [hbare] at hold
    cases hold
  · rw [run, hadd]
    exact ⟨⟨d, _, .ofPattern p⟩, rfl, rfl⟩

theorem occupied_of_empty (hd : d.Compiled) (haccepted : d.refusal? = none) :
    (empty.run (.addOrUpdate d)).Occupied 0 d := by
  refine ⟨.step _ .empty hd, ?_⟩
  obtain ⟨e, he, hdefinitions⟩ := Reachable.empty.definitions_add get?_empty hd haccepted
  exact ⟨e, he, hdefinitions⟩

theorem Vacated.add (h : t.Vacated g) (hd : d.Compiled) (haccepted : d.refusal? = none) :
    (t.run (.addOrUpdate d)).Occupied g d := by
  have hbare (k : SlotKey) : t.get? k = none := by
    obtain ⟨slot, generation⟩ := k
    rw [get?, h.definitions]
    cases slot <;> simp [SlotMap.get?]
  refine ⟨.step _ h.reachable hd, ?_⟩
  obtain ⟨e, he, hdefinitions⟩ := h.reachable.definitions_add hbare hd haccepted
  rw [h.definitions] at hdefinitions
  exact ⟨e, he, hdefinitions⟩

theorem Occupied.remove (h : t.Occupied g d) : (t.run (.remove ⟨0, g⟩)).Vacated (g + 1) := by
  refine ⟨.step _ h.reachable trivial, ?_⟩
  obtain ⟨t', hremove, -⟩ := remove_of_get? (h.get?_iff.2 ⟨rfl, rfl⟩)
  obtain ⟨e, definitions, herase, -, rfl⟩ := remove_eq_some.1 hremove
  obtain ⟨e', -, hdefinitions⟩ := h.definitions
  rw [run, hremove]
  obtain ⟨-, rfl⟩ := SlotMap.erase_eq_some.1 herase
  rw [hdefinitions]
  rfl

theorem Occupied.removeDefinition (h : t.Occupied g d) (hd : d.Compiled)
    (haccepted : d.refusal? = none) : (t.run (.removeDefinition d)).Vacated (g + 1) := by
  obtain ⟨phase, p, hplace⟩ := Definition.refusal?_eq_none.1 haccepted
  have hlive : t.get? ⟨0, g⟩ = some d := h.get?_iff.2 ⟨rfl, rfl⟩
  have hpresent : t.Present d := ⟨⟨0, g⟩, hasVersion_iff.2 ⟨d, hlive, rfl⟩⟩
  rcases h.reachable.wellFormed.find?_cases hd hplace with ⟨k, hfind, hversion⟩ | ⟨-, habsent⟩
  · obtain ⟨old, hold⟩ := hversion.exists_get?
    obtain ⟨rfl, -⟩ := h.get?_iff.1 hold
    have hrun : t.run (.removeDefinition d) = t.run (.remove ⟨0, g⟩) := by
      simp only [run, MatchingTree.removeDefinition, hfind]
    rw [hrun]
    exact h.remove
  · exact absurd hpresent habsent

/-- A definition that comes and goes moves the slot on by one generation each time. -/
theorem Vacated.cycles (h : t.Vacated g) (hd : d.Compiled) (haccepted : d.refusal? = none)
    (n : Nat) :
    (t.runAll (List.replicate n [.addOrUpdate d, .removeDefinition d]).flatten).Vacated
      (g + UInt32.ofNat n) := by
  induction n generalizing t g with
  | zero => simpa [runAll] using h
  | succ n ih =>
    have hcycle := (h.add hd haccepted).removeDefinition hd haccepted
    rw [List.replicate_succ, List.flatten_cons, runAll, List.foldl_append, Nat.add_comm n 1,
      UInt32.ofNat_add, ← UInt32.add_assoc]
    exact ih hcycle

theorem Vacated.cycles_add (h : t.Vacated g) (hd : d.Compiled) (haccepted : d.refusal? = none)
    {d' : Definition} (hd' : d'.Compiled) (haccepted' : d'.refusal? = none) (n : Nat) :
    (t.runAll ((List.replicate n [.addOrUpdate d, .removeDefinition d]).flatten ++
      [.addOrUpdate d'])).Occupied (g + UInt32.ofNat n) d' := by
  rw [runAll, List.foldl_append]
  exact (h.cycles hd haccepted n).add hd' haccepted'

end

/-- After `2 ^ 32` removals from its slot, a removed key finds a definition that came later. -/
theorem removed_comes_back :
    let knock (handler : String) : Definition :=
      ⟨"door", .phase .action, "I knock", .optional, .native handler none, none⟩
    let t := empty.run (.addOrUpdate (knock "front"))
    let t' := (t.run (.remove ⟨0, 0⟩)).runAll
      ((List.replicate (2 ^ 32 - 1)
        [.addOrUpdate (knock "side"), .removeDefinition (knock "side")]).flatten ++
          [.addOrUpdate (knock "back")])
    t'.Reachable ∧ t.get? ⟨0, 0⟩ = some (knock "front") ∧
      (t.run (.remove ⟨0, 0⟩)).get? ⟨0, 0⟩ = none ∧ t'.get? ⟨0, 0⟩ = some (knock "back") ∧
      (t'.replace ⟨0, 0⟩ (knock "side")).1 ≠ none ∧ (t'.remove ⟨0, 0⟩).1 ≠ none := by
  intro knock t t'
  have haccepted (handler : String) : Definition.refusal? (knock handler) = none :=
    (show (knock "").refusal? = none by decide +kernel)
  have ht : t.Occupied 0 (knock "front") := occupied_of_empty rfl (haccepted "front")
  have hremoved : (t.run (.remove ⟨0, 0⟩)).Vacated 1 := ht.remove
  have ht' : t'.Occupied 0 (knock "back") := by
    have hcompiled (handler : String) : (knock handler).Compiled := rfl
    have hback := hremoved.cycles_add (hcompiled "side") (haccepted "side") (hcompiled "back")
      (haccepted "back") (2 ^ 32 - 1)
    have hwraps : (1 : UInt32) + UInt32.ofNat (2 ^ 32 - 1) = 0 := by decide
    rw [hwraps] at hback
    exact hback
  have hlive : t'.get? ⟨0, 0⟩ = some (knock "back") := ht'.get?_iff.2 ⟨rfl, rfl⟩
  refine ⟨ht'.reachable, ht.get?_iff.2 ⟨rfl, rfl⟩, ?_, hlive, ?_, ?_⟩
  · rw [get?, hremoved.definitions]
    rfl
  · obtain ⟨_, hreplace, -⟩ := replace_of_get? hlive (knock "side")
    rw [hreplace]
    exact Option.some_ne_none _
  · obtain ⟨_, hremove, -⟩ := remove_of_get? hlive
    rw [hremove]
    exact Option.some_ne_none _

end StepLinker.MatchingTree
