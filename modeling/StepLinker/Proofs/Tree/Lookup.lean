import StepLinker.Proofs.Tree.Identity

/-!
# Lookup by identity

Whether a tree holds a version of a definition is a matter of all its keys (`HasVersion`,
`Present`), but a lookup goes to one node only, the one that the pattern of the definition leads to.
It misses nothing: versions of one definition have one signature, and the keys of a reachable tree
stand where the patterns of their definitions lead (`WellFormed.find?_cases`). So an addition and a
removal by identity do what `Present` calls for, and leave every other entry alone.
-/

namespace StepLinker.MatchingTree

/-- The key holds a version of `d`, from its source and of its type. -/
def HasVersion (t : MatchingTree) (k : SlotKey) (d : Definition) : Prop :=
  ∃ old, t.get? k = some old ∧ old.source = d.source ∧ old.type = d.type ∧ old.isSame d = true

def Present (t : MatchingTree) (d : Definition) : Prop :=
  ∃ k, t.HasVersion k d

def SameBut (k : SlotKey) (t t' : MatchingTree) : Prop :=
  ∀ k', k' ≠ k → t'.definitions.get? k' = t.definitions.get? k'

section
variable {t t' : MatchingTree} {k : SlotKey} {d old : Definition} {phase : Phase} {p : Pattern}

theorem HasVersion.exists_get? (h : t.HasVersion k d) : ∃ old, t.get? k = some old := by
  obtain ⟨old, hold, -⟩ := h
  exact ⟨old, hold⟩

theorem hasVersion_iff :
    t.HasVersion k d ↔ ∃ old, t.get? k = some old ∧ old.identity = d.identity := by
  simp only [HasVersion, Definition.identity_eq_iff]

theorem WellFormed.hasVersion_iff_holds (h : t.WellFormed) (hd : d.Compiled)
    (hplace : d.place? = some (phase, p)) :
    t.HasVersion k d ↔ k ∈ t.keysAt phase p.edges ∧ t.Holds k d := by
  rw [hasVersion_iff, h.holds_iff hd hplace]

/-! ## The operations -/

theorem sameBut_put (t : MatchingTree) (k : SlotKey) (d : Definition) (s : Specificity) :
    SameBut k t (t.put k d s) := by
  intro k' hk
  rw [put, SlotMap.get?_modify, if_neg hk]

theorem WellFormed.sameBut_graft (h : t.WellFormed) (phase : Phase) (p : Pattern)
    (d : Definition) : SameBut (t.graft phase p d).1 t (t.graft phase p d).2 := by
  intro k' hk
  unfold MatchingTree.graft MatchingTree.attach at hk ⊢
  rw [SlotMap.get?_insert h.slots]
  exact if_neg hk

theorem sameBut_remove (hr : t.remove k = (some old, t')) : SameBut k t t' := by
  obtain ⟨e, definitions, herase, -, rfl⟩ := remove_eq_some.1 hr
  intro k' hk
  show definitions.get? k' = _
  rw [SlotMap.get?_erase herase, if_neg hk]

theorem definitionCount_put (t : MatchingTree) (k : SlotKey) (d : Definition) (s : Specificity) :
    (t.put k d s).definitionCount = t.definitionCount :=
  SlotMap.size_modify t.definitions k _

theorem definitionCount_graft (t : MatchingTree) (phase : Phase) (p : Pattern) (d : Definition) :
    (t.graft phase p d).2.definitionCount = t.definitionCount + 1 :=
  SlotMap.size_insert t.definitions _

theorem WellFormed.definitionCount_remove (h : t.WellFormed) (hr : t.remove k = (some old, t')) :
    t'.definitionCount + 1 = t.definitionCount := by
  obtain ⟨e, definitions, herase, -, rfl⟩ := remove_eq_some.1 hr
  exact h.slots.size_erase herase

theorem WellFormed.find?_cases (h : t.WellFormed) (hd : d.Compiled)
    (hplace : d.place? = some (phase, p)) :
    (∃ k, t.find? d = some k ∧ t.HasVersion k d) ∨ (t.find? d = none ∧ ¬ t.Present d) := by
  obtain ⟨htype, hp⟩ := Definition.place?_eq_some.1 hplace
  have hfind : t.find? d = (t.forest.follow (t.forest.root phase) p.edges).bind (t.findAt · d) := by
    simp only [find?, htype, StepType.phase?, hp]
  cases hk : t.find? d with
  | some k =>
    rw [hfind] at hk
    obtain ⟨id, hid, hk⟩ := Option.bind_eq_some_iff.1 hk
    obtain ⟨hlisted, hholds⟩ := findAt_eq_some hk
    exact .inl ⟨k, rfl, (h.hasVersion_iff_holds hd hplace).2
      ⟨keysAt_of_follow hid ▸ hlisted, hholds⟩⟩
  | none =>
    refine .inr ⟨rfl, ?_⟩
    rintro ⟨k, hversion⟩
    obtain ⟨hmem, hholds⟩ := (h.hasVersion_iff_holds hd hplace).1 hversion
    obtain ⟨id, hid, hlisted⟩ := mem_keysAt_iff.1 hmem
    rw [hfind, hid, Option.bind_some] at hk
    exact findAt_eq_none hk k hlisted hholds

/-- An addition puts the definition in the place of a version of it, if there is one. -/
theorem WellFormed.addOrUpdate_cases_present (h : t.WellFormed) (hd : d.Compiled)
    (hplace : d.place? = some (phase, p)) :
    (∃ k, t.HasVersion k d ∧ t.addOrUpdate d = (.ok k, t.put k d (.ofPattern p))) ∨
      (¬ t.Present d ∧ t.addOrUpdate d = (.ok (t.graft phase p d).1, (t.graft phase p d).2)) := by
  rcases h.addOrUpdate_cases d with ⟨hno, -⟩ | ⟨phase', p', hplace', hadd⟩
  · rw [hplace] at hno
    cases hno
  rw [hplace] at hplace'
  cases hplace'
  rcases hadd with ⟨k, hmem, hholds, hadd⟩ | ⟨hno, hadd⟩
  · exact .inl ⟨k, (h.hasVersion_iff_holds hd hplace).2 ⟨hmem, hholds⟩, hadd⟩
  · refine .inr ⟨?_, hadd⟩
    rintro ⟨k, hversion⟩
    obtain ⟨hmem, hholds⟩ := (h.hasVersion_iff_holds hd hplace).1 hversion
    exact hno k hmem hholds

/-! ## Adding and removing by identity -/

/-- What becomes of a definition that is added: it takes the place of a version of it or goes under
a key that was not in use. -/
inductive Added (t : MatchingTree) (d : Definition) (k : SlotKey) (t' : MatchingTree) : Prop where
  | updated (version : t.HasVersion k d) (now : t'.get? k = some d)
      (nodes : t'.nodeCount = t.nodeCount) (count : t'.definitionCount = t.definitionCount)
      (others : SameBut k t t')
  | inserted (absent : ¬ t.Present d) (free : t.get? k = none) (now : t'.get? k = some d)
      (count : t'.definitionCount = t.definitionCount + 1) (others : SameBut k t t')

/-- One version of the definition is gone, the one under the key. -/
structure Removed (t : MatchingTree) (d : Definition) (k : SlotKey) (t' : MatchingTree) :
    Prop where
  version : t.HasVersion k d
  gone : t'.get? k = none
  count : t'.definitionCount + 1 = t.definitionCount
  others : SameBut k t t'

theorem WellFormed.exists_added (h : t.WellFormed) (hd : d.Compiled)
    (hplace : d.place? = some (phase, p)) :
    ∃ k t', t.addOrUpdate d = (.ok k, t') ∧ Added t d k t' := by
  rcases h.addOrUpdate_cases_present hd hplace with ⟨k, hversion, hadd⟩ | ⟨habsent, hadd⟩
  · obtain ⟨old, hold⟩ := hversion.exists_get?
    have hnow : (t.put k d (.ofPattern p)).get? k = some d := by
      rw [get?_put hold, if_pos rfl]
    exact ⟨k, _, hadd,
      .updated hversion hnow rfl (definitionCount_put t k d _) (sameBut_put t k d _)⟩
  · obtain ⟨hfree, hget⟩ := get?_graft h phase p d
    have hnow : (t.graft phase p d).2.get? (t.graft phase p d).1 = some d := by
      rw [hget, if_pos rfl]
    exact ⟨_, _, hadd, .inserted habsent hfree hnow (definitionCount_graft t phase p d)
      (h.sameBut_graft phase p d)⟩

theorem WellFormed.removeDefinition_cases (h : t.WellFormed) (hd : d.Compiled)
    (hplace : d.place? = some (phase, p)) :
    (∃ k t', t.removeDefinition d = (true, t') ∧ Removed t d k t') ∨
      (t.removeDefinition d = (false, t) ∧ ¬ t.Present d) := by
  rcases h.find?_cases hd hplace with ⟨k, hfind, hversion⟩ | ⟨hfind, habsent⟩
  · obtain ⟨old, hold⟩ := hversion.exists_get?
    obtain ⟨t', hremove, hget⟩ := remove_of_get? hold
    refine .inl ⟨k, t', ?_, hversion, by rw [hget, if_pos rfl],
      h.definitionCount_remove hremove, sameBut_remove hremove⟩
    simp only [removeDefinition, hfind, hremove, Option.isSome_some]
  · exact .inr ⟨by simp only [removeDefinition, hfind], habsent⟩

end

/-- Adding a definition and removing it by identity find a version of it wherever there is one. An
addition succeeds in any case; a removal does if there is something to remove, and otherwise leaves
the tree as it is. -/
theorem Reachable.found_by_identity {t : MatchingTree} (ht : t.Reachable) {d : Definition}
    (hd : d.Compiled) (hacceptable : d.isAcceptable = true) :
    (∃ k t', t.addOrUpdate d = (.ok k, t') ∧ Added t d k t') ∧
      ((t.removeDefinition d).1 = true ↔ t.Present d) ∧
      (∀ t', t.removeDefinition d = (true, t') → ∃ k, Removed t d k t') ∧
      ∀ t', t.removeDefinition d = (false, t') → t' = t := by
  have h := ht.wellFormed
  obtain ⟨phase, p, hplace⟩ :=
    Definition.refusal?_eq_none.1 ((Definition.isAcceptable_iff hd).1 hacceptable)
  refine ⟨h.exists_added hd hplace, ?_⟩
  rcases h.removeDefinition_cases hd hplace with ⟨k, t', hremove, hremoved⟩ | ⟨hremove, habsent⟩
  · rw [hremove]
    refine ⟨⟨fun _ => ⟨k, hremoved.version⟩, fun _ => rfl⟩, fun t'' ht'' => ?_, nofun⟩
    cases ht''
    exact ⟨k, hremoved⟩
  · rw [hremove]
    refine ⟨⟨nofun, fun hpresent => absurd hpresent habsent⟩, nofun, fun t' ht' => ?_⟩
    cases ht'
    rfl

/-- Declarations that differ in the name of the placeholder only share a node, where a version of
the second one stands, which takes other tables. -/
theorem found_by_identity_pay :
    let pay (declaration : String) (table : TableRule) : Definition :=
      ⟨"shop", .phase .action, declaration, table, .native "pay" none, none⟩
    let t := (((empty.run (.addOrUpdate (pay "I pay {sum:int}" .optional))).run
      (.addOrUpdate (pay "I pay {price:int}" .optional))).run
      (.addOrUpdate (pay "I pay" .optional))).run (.remove ⟨2, 0⟩)
    let d := pay "I pay {price:int}" .required
    t.Reachable ∧ d.Compiled ∧ d.isAcceptable = true ∧ t.HasVersion ⟨1, 0⟩ d ∧
      (∃ k t', t.addOrUpdate d = (.ok k, t') ∧ Added t d k t') ∧
      ∃ k t', t.removeDefinition d = (true, t') ∧ Removed t d k t' := by
  intro pay t d
  have ht : t.Reachable :=
    .step _ (.step _ (.step _ (.step _ .empty rfl) rfl) rfl) trivial
  have hacceptable : d.isAcceptable = true := by decide +kernel
  have hversion : t.HasVersion ⟨1, 0⟩ d :=
    ⟨pay "I pay {price:int}" .optional, by decide +kernel, rfl, rfl, by decide +kernel⟩
  have hcompiled : d.Compiled := rfl
  obtain ⟨hadded, hpresent, hremoved, -⟩ := ht.found_by_identity hcompiled hacceptable
  have hremove : t.removeDefinition d = (true, (t.removeDefinition d).2) :=
    Prod.ext (hpresent.2 ⟨_, hversion⟩) rfl
  obtain ⟨k, hgone⟩ := hremoved _ hremove
  exact ⟨ht, hcompiled, hacceptable, hversion, hadded, k, _, hremove, hgone⟩

end StepLinker.MatchingTree
