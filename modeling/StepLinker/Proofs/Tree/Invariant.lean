import StepLinker.Proofs.Tree.Growth
import StepLinker.Tree.MatchingTree

/-!
# The invariant of the matching tree

A tree changes by four operations (`Operation`), and the trees that a run of them makes from the
empty one are the `Reachable` trees. `WellFormed` is what every run keeps: the slot map and the
forest are well formed, no node below a root is dead, each entry names the node to which the pattern
of its definition leads (`Genuine`), and that node lists its key. What an operation can do is said
once, in `WellFormed.addOrUpdate_cases`, `replace_eq_some` and `remove_eq_some`.
-/

namespace StepLinker

/-- The pattern is the one that the declaration compiles to. -/
def Definition.Compiled (d : Definition) : Prop :=
  d.pattern = Pattern.ofDeclaration d.declaration

/-- The phase and the pattern by which a definition is kept, if it can be added. -/
def Definition.place? (d : Definition) : Option (Phase × Pattern) :=
  match d.type, d.pattern with
  | .phase phase, .ok p => some (phase, p)
  | _, _ => none

theorem Definition.place?_eq_some {d : Definition} {phase : Phase} {p : Pattern} :
    d.place? = some (phase, p) ↔ d.type = .phase phase ∧ d.pattern = .ok p := by
  rcases htype : d.type with phase' | _ <;> rcases hp : d.pattern with error | p' <;>
    simp [place?, htype, hp]

theorem Definition.place?_of_signature {d d' : Definition} (hd : d.Compiled) (hd' : d'.Compiled)
    (hs : d.signature = d'.signature) : d'.place? = d.place? := by
  obtain ⟨htype, hdeclaration⟩ := Signature.mk.inj hs
  unfold place?
  rw [hd, hd', htype, hdeclaration]

namespace MatchingTree

/-! ## The operations, part by part -/

/-- Whether `k` holds another version of `d` from the same source. -/
def Holds (t : MatchingTree) (k : SlotKey) (d : Definition) : Prop :=
  ∃ e, t.definitions.get? k = some e ∧ e.definition.source = d.source ∧ e.definition.isSame d

def keysAt (t : MatchingTree) (phase : Phase) (path : List Edge) : List SlotKey :=
  ((t.forest.follow (t.forest.root phase) path).map t.forest.listed).getD []

/-- Adds `d` under a key of its own, at the end of its path. -/
def graft (t : MatchingTree) (phase : Phase) (p : Pattern) (d : Definition) :
    SlotKey × MatchingTree :=
  let (id, forest) := t.forest.grow (t.forest.root phase) p.edges
  attach { t with forest := forest } id d (.ofPattern p)

section
variable {t t' : MatchingTree} {k : SlotKey} {d old : Definition} {id : SlotKey} {phase : Phase}
  {path : List Edge} {p : Pattern}

theorem keysAt_of_follow (h : t.forest.follow (t.forest.root phase) path = some id) :
    t.keysAt phase path = t.forest.listed id := by
  rw [keysAt, h]
  rfl

theorem mem_keysAt_iff : k ∈ t.keysAt phase path ↔
    ∃ id, t.forest.follow (t.forest.root phase) path = some id ∧ k ∈ t.forest.listed id := by
  unfold keysAt
  cases t.forest.follow (t.forest.root phase) path <;> simp

theorem findAt_eq_find? (t : MatchingTree) (id : SlotKey) (d : Definition) :
    t.findAt id d = (t.forest.listed id).find? fun k =>
      (t.get? k).any fun other => other.source = d.source && other.isSame d := by
  unfold findAt Forest.listed
  cases t.forest.node? id <;> rfl

theorem findAt_eq_some (h : t.findAt id d = some k) : k ∈ t.forest.listed id ∧ t.Holds k d := by
  rw [findAt_eq_find?] at h
  refine ⟨List.mem_of_find?_eq_some h, ?_⟩
  have hholds := List.find?_some h
  simpa only [get?, Option.any_map, Option.any_eq_true, Bool.and_eq_true, decide_eq_true_eq, Holds]
    using hholds

theorem findAt_eq_none (h : t.findAt id d = none) : ∀ k ∈ t.forest.listed id, ¬ t.Holds k d := by
  rw [findAt_eq_find?] at h
  rintro k hk ⟨e, he, hsource, hsame⟩
  have hno := List.find?_eq_none.1 h k hk
  simp [get?, he, hsource, hsame] at hno

theorem replace_of_entry {e : Entry} (he : t.definitions.get? k = some e) (d : Definition) :
    t.replace k d = (some e.definition, t.put k d e.specificity) := by
  simp [replace, put, SlotMap.modify, he]

theorem replace_of_none (h : t.get? k = none) (d : Definition) : t.replace k d = (none, t) := by
  have hnone : t.definitions.get? k = none := Option.map_eq_none_iff.1 h
  simp [replace, hnone]

theorem replace_eq_some : t.replace k d = (some old, t') ↔
    ∃ e, t.definitions.get? k = some e ∧ e.definition = old ∧ t' = t.put k d e.specificity := by
  cases he : t.definitions.get? k with
  | none => simp [replace_of_none (show t.get? k = none by rw [get?, he]; rfl)]
  | some e => simp [replace_of_entry he, eq_comm]

theorem remove_of_none (h : t.get? k = none) : t.remove k = (none, t) := by
  have hnone : t.definitions.get? k = none := Option.map_eq_none_iff.1 h
  simp [remove, SlotMap.erase, hnone]

theorem remove_eq_some : t.remove k = (some d, t') ↔
    ∃ e definitions, t.definitions.erase k = some (e, definitions) ∧ e.definition = d ∧
      t' = ⟨(t.forest.modify e.node (·.strike k)).prune t.forest.nodes.size e.node,
        definitions⟩ := by
  have hsize (id : SlotKey) (change : Node → Node) :
      (t.forest.modify id change).nodes.size = t.forest.nodes.size :=
    SlotMap.size_modify _ _ _
  unfold remove
  cases herase : t.definitions.erase k with
  | none => simp
  | some r =>
    obtain ⟨e, definitions⟩ := r
    simp [hsize, eq_comm]

theorem addOrUpdate_of_place? (h : d.place? = some (phase, p)) :
    let (id, forest) := t.forest.grow (t.forest.root phase) p.edges
    let grown : MatchingTree := { t with forest := forest }
    (∃ k, grown.findAt id d = some k ∧
      t.addOrUpdate d = (.ok k, grown.put k d (.ofPattern p))) ∨
    (grown.findAt id d = none ∧
      t.addOrUpdate d = (.ok (t.graft phase p d).1, (t.graft phase p d).2)) := by
  obtain ⟨htype, hp⟩ := Definition.place?_eq_some.1 h
  simp only [addOrUpdate, htype, StepType.phase?, hp, graft]
  cases hk : findAt _ _ d with
  | some k => exact .inl ⟨k, rfl, rfl⟩
  | none => exact .inr ⟨rfl, rfl⟩

theorem addOrUpdate_of_not_place? (h : d.place? = none) :
    ∃ error, t.addOrUpdate d = (.error error, t) := by
  rcases htype : d.type with phase | _
  · rcases hp : d.pattern with error | p
    · exact ⟨.invalidDeclaration error, by simp [addOrUpdate, htype, hp, StepType.phase?]⟩
    · simp [Definition.place?, htype, hp] at h
  · exact ⟨.unboundType .conjunction, by simp [addOrUpdate, htype, StepType.phase?]⟩

end

/-! ## The invariant -/

/-- The entry holds a definition with its own pattern, and names the node to which that leads. -/
def Genuine (t : MatchingTree) (e : Entry) : Prop :=
  e.definition.Compiled ∧ ∃ phase p, e.definition.place? = some (phase, p) ∧
    e.specificity = .ofPattern p ∧
    t.forest.follow (t.forest.root phase) p.edges = some e.node

structure WellFormed (t : MatchingTree) : Prop where
  slots : t.definitions.WellFormed
  forest : t.forest.WellFormed
  used : t.forest.Used
  genuine : ∀ {k e}, t.definitions.get? k = some e → t.Genuine e
  nodup_listed : ∀ id, (t.forest.listed id).Nodup
  mem_listed : ∀ {id k}, k ∈ t.forest.listed id ↔
    ∃ e, t.definitions.get? k = some e ∧ e.node = id

section
variable {t t' : MatchingTree} {k : SlotKey} {d old : Definition} {e : Entry} {phase : Phase}
  {path : List Edge} {p : Pattern}

theorem WellFormed.compiled (h : t.WellFormed) (he : t.definitions.get? k = some e) :
    e.definition.Compiled :=
  (h.genuine he).1

theorem WellFormed.exists_place? (h : t.WellFormed) (he : t.definitions.get? k = some e) :
    ∃ phase p, e.definition.place? = some (phase, p) ∧ e.specificity = .ofPattern p ∧
      t.forest.follow (t.forest.root phase) p.edges = some e.node :=
  (h.genuine he).2

/-- A key stands on one path, that of its definition. -/
theorem WellFormed.mem_keysAt (h : t.WellFormed) : k ∈ t.keysAt phase path ↔
    ∃ d p, t.get? k = some d ∧ d.place? = some (phase, p) ∧ p.edges = path := by
  rw [mem_keysAt_iff]
  constructor
  · rintro ⟨id, hid, hk⟩
    obtain ⟨e, he, rfl⟩ := h.mem_listed.1 hk
    obtain ⟨phase', p, hplace, -, hfollow⟩ := h.exists_place? he
    obtain ⟨rfl, rfl⟩ := h.forest.follow_inj hid hfollow
    exact ⟨e.definition, p, by rw [get?, he]; rfl, hplace, rfl⟩
  · rintro ⟨d, p, hd, hplace, rfl⟩
    obtain ⟨e, he, rfl⟩ := Option.map_eq_some_iff.1 hd
    obtain ⟨phase', p', hplace', -, hfollow⟩ := h.exists_place? he
    rw [hplace] at hplace'
    cases hplace'
    exact ⟨e.node, hfollow, h.mem_listed.2 ⟨e, he, rfl⟩⟩

/-- What adding a definition does: it fails, or the definition takes the place of another version
of it on its path, or there is none and the definition is added. -/
theorem WellFormed.addOrUpdate_cases (h : t.WellFormed) (d : Definition) :
    (d.place? = none ∧ ∃ error, t.addOrUpdate d = (.error error, t)) ∨
    ∃ phase p, d.place? = some (phase, p) ∧
      ((∃ k ∈ t.keysAt phase p.edges, t.Holds k d ∧
          t.addOrUpdate d = (.ok k, t.put k d (.ofPattern p))) ∨
        ((∀ k ∈ t.keysAt phase p.edges, ¬ t.Holds k d) ∧
          t.addOrUpdate d = (.ok (t.graft phase p d).1, (t.graft phase p d).2))) := by
  cases hplace : d.place? with
  | none => exact .inl ⟨rfl, addOrUpdate_of_not_place? hplace⟩
  | some place =>
    obtain ⟨phase, p⟩ := place
    refine .inr ⟨phase, p, rfl, ?_⟩
    obtain ⟨n, hn, -⟩ := h.forest.root_live phase
    have hgrown := h.forest.grow hn p.edges
    have hcases := addOrUpdate_of_place? (t := t) hplace
    generalize hr : t.forest.grow (t.forest.root phase) p.edges = r at hgrown hcases
    obtain ⟨id, forest⟩ := r
    rcases hcases with ⟨k, hk, hadd⟩ | ⟨hnone, hadd⟩
    · obtain ⟨hlisted, hholds⟩ := findAt_eq_some hk
      have hmem : k ∈ t.forest.listed id := hgrown.extend.listed id ▸ hlisted
      obtain ⟨e, he, rfl⟩ := h.mem_listed.1 hmem
      obtain ⟨phase', p', -, -, hfollow⟩ := h.exists_place? he
      -- the node lists a key, so it was there before, and so was the path to it
      have hleads : forest.follow (forest.root phase) p.edges = some e.node :=
        (hgrown.extend.root phase).symm ▸ hgrown.leads
      have hfollow' : forest.follow (forest.root phase') p'.edges = some e.node :=
        (hgrown.extend.root phase').symm ▸ hgrown.extend.follow hfollow
      obtain ⟨rfl, hedges⟩ := hgrown.wellFormed.follow_inj hleads hfollow'
      rw [← hedges] at hfollow
      rw [Forest.grow_of_follow hfollow] at hr
      cases hr
      exact .inl ⟨k, keysAt_of_follow hfollow ▸ hmem, hholds, hadd⟩
    · refine .inr ⟨fun k hk => ?_, hadd⟩
      obtain ⟨id', hid', hk⟩ := mem_keysAt_iff.1 hk
      obtain rfl : id = id' := Option.some.inj (hgrown.leads.symm.trans (hgrown.extend.follow hid'))
      exact findAt_eq_none hnone k ((hgrown.extend.listed id).symm ▸ hk)

/-! ## The operations keep it -/

/-- A definition is put where one that leads to the same node was. -/
theorem WellFormed.put (h : t.WellFormed) (he : t.definitions.get? k = some e) {s : Specificity}
    (hgenuine : t.Genuine { e with definition := d, specificity := s }) :
    (t.put k d s).WellFormed := by
  have hget (k' : SlotKey) : (t.put k d s).definitions.get? k' =
      if k' = k then some { e with definition := d, specificity := s }
      else t.definitions.get? k' := by
    rw [MatchingTree.put, SlotMap.get?_modify, he]
    rfl
  refine ⟨h.slots.modify _ _, h.forest, h.used, fun {k' e'} he' => ?_, h.nodup_listed, ?_⟩
  · rw [hget] at he'
    split at he'
    · cases he'
      exact hgenuine
    · exact h.genuine he'
  · intro id k'
    rw [hget]
    refine h.mem_listed.trans ?_
    by_cases hk : k' = k
    · subst hk
      simp [he]
    · rw [if_neg hk]

theorem WellFormed.graft (h : t.WellFormed) (hd : d.Compiled)
    (hplace : d.place? = some (phase, p)) : (t.graft phase p d).2.WellFormed := by
  obtain ⟨n, hn, -⟩ := h.forest.root_live phase
  have hgrown := h.forest.grow hn p.edges
  unfold MatchingTree.graft MatchingTree.attach
  generalize t.forest.grow (t.forest.root phase) p.edges = r at hgrown ⊢
  obtain ⟨id, forest⟩ := r
  have hfree := SlotMap.get?_insert_fst h.slots ⟨d, id, .ofPattern p⟩
  have hget := SlotMap.get?_insert h.slots ⟨d, id, .ofPattern p⟩
  have hslots := h.slots.insert ⟨d, id, .ofPattern p⟩
  dsimp only at hgrown ⊢
  generalize t.definitions.insert ⟨d, id, .ofPattern p⟩ = r at hfree hget hslots ⊢
  obtain ⟨k, definitions⟩ := r
  have hlinks : forest.SameLinks (forest.modify id (·.enlist k)) :=
    Forest.sameLinks_modify forest id fun _ => ⟨rfl, rfl⟩
  obtain ⟨m, hm⟩ := hgrown.wellFormed.exists_node?_of_follow_root
    ((hgrown.extend.root phase).symm ▸ hgrown.leads)
  have hlisted (x : SlotKey) : (forest.modify id (·.enlist k)).listed x =
      t.forest.listed x ++ if x = id then [k] else [] := by
    rw [← hgrown.extend.listed, Forest.listed_modify_enlist hm]
  have hfollow {phase : Phase} {path : List Edge} {x : SlotKey}
      (hpath : forest.follow (t.forest.root phase) path = some x) :
      (forest.modify id (·.enlist k)).follow
        ((forest.modify id (·.enlist k)).root phase) path = some x := by
    rw [hlinks.follow, hlinks.root, hgrown.extend.root, hpath]
  refine ⟨hslots, hgrown.wellFormed.of_sameLinks hlinks, ?_, fun {k' e'} he' => ?_, fun x => ?_,
    fun {x k'} => ?_⟩
  · exact ((hgrown.used (h.used.usedBut _)).modify _).used_of_listed (by simp [hlisted])
  · dsimp only at he'
    rw [hget] at he'
    split at he'
    · cases he'
      exact ⟨hd, phase, p, hplace, rfl, hfollow hgrown.leads⟩
    · obtain ⟨hcompiled, phase', p', hplace', hs, hpath⟩ := h.genuine he'
      exact ⟨hcompiled, phase', p', hplace', hs, hfollow (hgrown.extend.follow hpath)⟩
  · dsimp only
    rw [hlisted]
    refine (h.nodup_listed x).append (by split <;> simp) ?_
    -- the new key stands nowhere yet, as it is not in use
    have hnew : k ∉ t.forest.listed x := by
      rw [h.mem_listed]
      rintro ⟨e', he', -⟩
      dsimp only at hfree
      rw [hfree] at he'
      cases he'
    split <;> simp [hnew]
  · dsimp only at hfree hget ⊢
    rw [hlisted, List.mem_append, h.mem_listed, hget]
    by_cases hk : k' = k
    · subst hk
      by_cases hx : x = id <;> simp [hx, hfree, eq_comm]
    · by_cases hx : x = id <;> simp [hx, hk]

theorem WellFormed.remove (h : t.WellFormed) (hr : t.remove k = (some d, t')) :
    t'.WellFormed := by
  obtain ⟨e, definitions, herase, rfl, rfl⟩ := remove_eq_some.1 hr
  have he := (SlotMap.erase_eq_some.1 herase).1
  have hlinks : t.forest.SameLinks (t.forest.modify e.node (·.strike k)) :=
    Forest.sameLinks_modify t.forest e.node fun _ => ⟨rfl, rfl⟩
  -- the key stands at its own node only, so striking it there strikes it everywhere
  have hlisted (x : SlotKey) : (t.forest.modify e.node (·.strike k)).listed x =
      (t.forest.listed x).filter (· ≠ k) := by
    rw [Forest.listed_modify_strike]
    split
    · rfl
    · next hx =>
      refine (List.filter_eq_self.2 fun k' hk' => decide_eq_true ?_).symm
      rintro rfl
      obtain ⟨e', he', rfl⟩ := h.mem_listed.1 hk'
      rw [he] at he'
      cases he'
      exact hx rfl
  have hpruned := (h.forest.of_sameLinks hlinks).prune (le_of_eq hlinks.size) e.node
  have hmem {x k' : SlotKey} :
      k' ∈ ((t.forest.modify e.node (·.strike k)).prune t.forest.nodes.size e.node).listed x ↔
        ∃ e', definitions.get? k' = some e' ∧ e'.node = x := by
    rw [hpruned.listed, hlisted, List.mem_filter, h.mem_listed, SlotMap.get?_erase herase]
    by_cases hk : k' = k <;> simp [hk]
  refine ⟨h.slots.erase herase, hpruned.wellFormed, hpruned.used ((h.used.usedBut _).modify _),
    fun {k' e'} he' => ?_, fun x => ?_, hmem⟩
  · have hstands : k' ∈ (t.forest.modify e.node (·.strike k)).listed e'.node :=
      hpruned.listed _ ▸ hmem.2 ⟨e', he', rfl⟩
    dsimp only at he'
    rw [SlotMap.get?_erase herase] at he'
    split at he'
    · cases he'
    · obtain ⟨hcompiled, phase, p, hplace, hs, hpath⟩ := h.genuine he'
      refine ⟨hcompiled, phase, p, hplace, hs, ?_⟩
      dsimp only
      rw [hpruned.root, hlinks.root]
      exact hpruned.follow (List.ne_nil_of_mem hstands) (by rw [hlinks.follow, hpath])
  · dsimp only
    rw [hpruned.listed, hlisted]
    exact (h.nodup_listed x).filter _

end

theorem wellFormed_empty : empty.WellFormed where
  slots := SlotMap.wellFormed_empty
  forest := Forest.wellFormed_empty
  used := Forest.used_empty
  genuine h := by simp [empty] at h
  nodup_listed id := by simp [empty, Forest.listed_empty]
  mem_listed := by simp [empty, Forest.listed_empty]

/-! ## Runs -/

inductive Operation where
  | addOrUpdate (d : Definition)
  | replace (k : SlotKey) (d : Definition)
  | remove (k : SlotKey)
  | removeDefinition (d : Definition)

def run (t : MatchingTree) : Operation → MatchingTree
  | .addOrUpdate d => (t.addOrUpdate d).2
  | .replace k d => (t.replace k d).2
  | .remove k => (t.remove k).2
  | .removeDefinition d => (t.removeDefinition d).2

/-- What a call does: nothing, or an addition, a replacement or a removal that succeeds. -/
theorem run_cases (t : MatchingTree) (op : Operation) :
    t.run op = t ∨
    (∃ d k, op = .addOrUpdate d ∧ t.addOrUpdate d = (.ok k, t.run op)) ∨
    (∃ k d old, op = .replace k d ∧ t.replace k d = (some old, t.run op)) ∨
    ∃ k d, t.remove k = (some d, t.run op) := by
  have hremove (k : SlotKey) : (t.remove k).2 = t ∨ ∃ d, t.remove k = (some d, (t.remove k).2) := by
    rcases hr : t.get? k with _ | d
    · exact .inl (by rw [remove_of_none hr])
    · obtain ⟨e, he, rfl⟩ := Option.map_eq_some_iff.1 hr
      have hsome := remove_eq_some.2 ⟨e, _, SlotMap.erase_eq_some.2 ⟨he, rfl⟩, rfl, rfl⟩
      exact .inr ⟨e.definition, by rw [hsome]⟩
  cases op with
  | addOrUpdate d =>
    cases hplace : d.place? with
    | none =>
      obtain ⟨error, hadd⟩ := addOrUpdate_of_not_place? (t := t) hplace
      exact .inl (by rw [run, hadd])
    | some place =>
      rcases addOrUpdate_of_place? (t := t) hplace with ⟨k, -, hadd⟩ | ⟨-, hadd⟩
      · exact .inr (.inl ⟨d, k, rfl, by rw [run, hadd]⟩)
      · exact .inr (.inl ⟨d, _, rfl, by rw [run, hadd]⟩)
  | replace k d =>
    rcases hr : t.get? k with _ | old
    · exact .inl (by rw [run, replace_of_none hr])
    · obtain ⟨e, he, rfl⟩ := Option.map_eq_some_iff.1 hr
      exact .inr (.inr (.inl ⟨k, d, e.definition, rfl, by rw [run, replace_of_entry he]⟩))
  | remove k =>
    rcases hremove k with h | ⟨d, h⟩
    · exact .inl h
    · exact .inr (.inr (.inr ⟨k, d, h⟩))
  | removeDefinition d =>
    cases hfind : t.find? d with
    | none => exact .inl (by simp [run, removeDefinition, hfind])
    | some k =>
      have hrun : t.run (.removeDefinition d) = (t.remove k).2 := by
        simp [run, removeDefinition, hfind]
      rw [hrun]
      rcases hremove k with h | ⟨d, h⟩
      · exact .inl h
      · exact .inr (.inr (.inr ⟨k, d, h⟩))

/-- Whether the call may be made: the definitions that come in hold the patterns of their
declarations, and a definition is replaced by one with its type and declaration. -/
def Operation.Allowed (t : MatchingTree) : Operation → Prop
  | .addOrUpdate d => d.Compiled
  | .replace k d => d.Compiled ∧ ∀ old, t.get? k = some old → old.signature = d.signature
  | .remove _ => True
  | .removeDefinition _ => True

/-- The trees that calls make from the empty one, in any order and number. -/
inductive Reachable : MatchingTree → Prop where
  | empty : Reachable empty
  | step {t : MatchingTree} (op : Operation) : Reachable t → op.Allowed t → Reachable (t.run op)

theorem WellFormed.addOrUpdate {t : MatchingTree} (h : t.WellFormed) {d : Definition}
    (hd : d.Compiled) : (t.addOrUpdate d).2.WellFormed := by
  rcases h.addOrUpdate_cases d with ⟨-, error, hadd⟩ | ⟨phase, p, hplace, hadd⟩
  · rw [hadd]
    exact h
  · rcases hadd with ⟨k, hk, -, hadd⟩ | ⟨-, hadd⟩ <;> rw [hadd]
    · obtain ⟨id, hid, hk⟩ := mem_keysAt_iff.1 hk
      obtain ⟨e, he, rfl⟩ := h.mem_listed.1 hk
      exact h.put he ⟨hd, phase, p, hplace, rfl, hid⟩
    · exact h.graft hd hplace

theorem WellFormed.replace {t t' : MatchingTree} (h : t.WellFormed) {k : SlotKey}
    {d old : Definition} (hd : d.Compiled) (hs : old.signature = d.signature)
    (hr : t.replace k d = (some old, t')) : t'.WellFormed := by
  obtain ⟨e, he, rfl, rfl⟩ := replace_eq_some.1 hr
  have hplace := Definition.place?_of_signature (h.compiled he) hd hs
  obtain ⟨phase, p, hplace', hspecificity, hfollow⟩ := h.exists_place? he
  exact h.put he ⟨hd, phase, p, hplace.trans hplace', hspecificity, hfollow⟩

/-- One call keeps the invariant. -/
theorem WellFormed.run {t : MatchingTree} (h : t.WellFormed) {op : Operation}
    (hop : op.Allowed t) : (t.run op).WellFormed := by
  rcases t.run_cases op with hrun | ⟨d, k, rfl, -⟩ | ⟨k, d, old, rfl, hr⟩ | ⟨k, d, hr⟩
  · rw [hrun]
    exact h
  · exact h.addOrUpdate hop
  · obtain ⟨e, he, hold, -⟩ := replace_eq_some.1 hr
    exact h.replace hop.1 (hop.2 old (by simp [get?, he, hold])) hr
  · exact h.remove hr

theorem Reachable.wellFormed {t : MatchingTree} (h : t.Reachable) : t.WellFormed := by
  induction h with
  | empty => exact wellFormed_empty
  | step op _ hop ih => exact ih.run hop

end MatchingTree

end StepLinker
