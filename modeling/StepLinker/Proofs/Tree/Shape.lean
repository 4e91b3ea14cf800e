import Mathlib.Data.Finset.Card
import StepLinker.Proofs.Tree.Contents

/-!
# The shape of a reachable tree

The nodes of a tree are there for its live definitions and for nothing else (`Tidy`): each
definition stands at the node to which the edges of its pattern lead, every node in the slot map is
linked to a root, and every node below a root lies on the way to a definition. So the nodes below
the roots are as many as the distinct beginnings of the patterns of the live definitions
(`WellFormed.nodeCount_eq`), whatever else the tree once held.
-/

namespace StepLinker

/-- The phase and the edges of a definition that can be added. -/
def Definition.address? (d : Definition) : Option (Phase × List Edge) :=
  match d.type, d.pattern with
  | .phase phase, .ok p => some (phase, p.edges)
  | _, _ => none

/-- The beginnings of the definition's path that are not empty, with its phase. -/
def Definition.beginnings (d : Definition) : List (Phase × List Edge) :=
  match d.address? with
  | some (phase, path) => (path.inits.filter (· ≠ [])).map (phase, ·)
  | none => []

theorem Definition.address?_of_place? {d : Definition} {phase : Phase} {p : Pattern}
    (h : d.place? = some (phase, p)) : d.address? = some (phase, p.edges) := by
  obtain ⟨htype, hp⟩ := Definition.place?_eq_some.1 h
  simp only [address?, htype, hp]

theorem Definition.mem_beginnings {d : Definition} {phase phase' : Phase} {p : Pattern}
    (h : d.place? = some (phase, p)) {path : List Edge} :
    (phase', path) ∈ d.beginnings ↔ phase' = phase ∧ path ≠ [] ∧ path <+: p.edges := by
  simp only [beginnings, address?_of_place? h, List.mem_map, List.mem_filter, List.mem_inits,
    decide_eq_true_eq, Prod.mk.injEq]
  constructor
  · rintro ⟨_, ⟨hbegins, hne⟩, rfl, rfl⟩
    exact ⟨rfl, hne, hbegins⟩
  · rintro ⟨rfl, hne, hbegins⟩
    exact ⟨path, ⟨hbegins, hne⟩, rfl, rfl⟩

namespace MatchingTree

/-- The nodes serve the live definitions and nothing else. -/
structure Tidy (t : MatchingTree) : Prop where
  /-- An entry's node is where its pattern's edges lead from the root of its type. -/
  leads : ∀ k e, t.definitions.get? k = some e → ∃ phase path n,
    e.definition.address? = some (phase, path) ∧
      t.forest.follow (t.forest.root phase) path = some e.node ∧
      t.forest.nodes.get? e.node = some n ∧ k ∈ n.definitions
  /-- A node lists the keys whose entries point at it, each once. -/
  lists : ∀ id n, t.forest.nodes.get? id = some n → n.definitions.Nodup ∧
    ∀ k, k ∈ n.definitions ↔ ∃ e, t.definitions.get? k = some e ∧ e.node = id
  /-- Siblings have distinct edges. -/
  siblings : ∀ id n, t.forest.nodes.get? id = some n → (n.children.map (·.1)).Nodup
  /-- The children of a node are nodes that name it as their parent, with the edge. -/
  down : ∀ id n edge c, t.forest.nodes.get? id = some n → (edge, c) ∈ n.children →
    ∃ m, t.forest.nodes.get? c = some m ∧ m.parent = some (id, edge)
  /-- The parent that a node names is a node, and has it as its child behind the edge. -/
  up : ∀ id n x edge, t.forest.nodes.get? id = some n → n.parent = some (x, edge) →
    ∃ m, t.forest.nodes.get? x = some m ∧ (edge, id) ∈ m.children
  /-- The roots are three nodes, and all others have a parent. -/
  roots : (∀ phase phase', t.forest.root phase = t.forest.root phase' → phase = phase') ∧
    (∀ phase, ∃ n, t.forest.nodes.get? (t.forest.root phase) = some n) ∧
    ∀ id n, t.forest.nodes.get? id = some n →
      (n.parent = none ↔ ∃ phase, t.forest.root phase = id)
  /-- Every node can be reached from a root, in one way. -/
  reached : ∀ id n, t.forest.nodes.get? id = some n →
    ∃! place : Phase × List Edge, t.forest.follow (t.forest.root place.1) place.2 = some id
  /-- Every node below a root has a definition or a child. -/
  used : ∀ id n, t.forest.nodes.get? id = some n → (∀ phase, t.forest.root phase ≠ id) →
    n.definitions ≠ [] ∨ n.children ≠ []
  /-- The stored size is the number of nodes. -/
  counted : ∃ ids : Finset SlotKey, ids.card = t.nodeCount ∧
    ∀ id, id ∈ ids ↔ ∃ n, t.forest.nodes.get? id = some n

section
variable {t t' : MatchingTree} {phase : Phase} {path : List Edge} {id : SlotKey}

def nodeKeys (t : MatchingTree) : Finset SlotKey :=
  (t.forest.nodes.entries.map (·.1)).toFinset

theorem mem_nodeKeys : id ∈ t.nodeKeys ↔ ∃ n, t.forest.node? id = some n := by
  simp [nodeKeys, SlotMap.mem_entries, Forest.node?]

theorem WellFormed.card_nodeKeys (h : t.WellFormed) : t.nodeKeys.card = t.nodeCount := by
  rw [nodeKeys, List.toFinset_card_of_nodup (SlotMap.nodup_entries _), List.length_map]
  exact SlotMap.length_entries h.forest.slots

/-- From every node below a root a path goes on to a definition. A path is shorter than there are
nodes, so going on comes to an end. -/
theorem WellFormed.exists_mem_keysAt (h : t.WellFormed) (hne : path ≠ [])
    (hpath : t.forest.follow (t.forest.root phase) path = some id) :
    ∃ more k, k ∈ t.keysAt phase (path ++ more) := by
  induction hn : t.forest.nodes.size - path.length using Nat.strongRecOn generalizing path id with
  | _ n ih =>
    obtain ⟨m, hm⟩ := h.forest.exists_node?_of_follow_root hpath
    have hparent : m.parent ≠ none := by
      obtain ⟨path, edge, rfl⟩ := (List.eq_nil_or_concat' path).resolve_left hne
      obtain ⟨x, -, hedge⟩ := Forest.follow_concat_eq_some.1 hpath
      rw [← Forest.parent?_of_node? hm, h.forest.down hedge]
      exact Option.some_ne_none _
    have hused := h.used hm hparent
    by_cases hdefinitions : m.definitions = []
    · have hchildren : m.children ≠ [] := by
        intro hnil
        rw [Node.isDead_iff.2 ⟨hdefinitions, hnil⟩] at hused
        cases hused
      obtain ⟨⟨edge, c⟩, hc⟩ := List.exists_mem_of_ne_nil _ hchildren
      have hstep : t.forest.child? id edge = some c :=
        (Forest.child?_of_node? hm).trans ((h.forest.siblings hm).find?_eq_some.2 hc)
      have hlonger := Forest.follow_concat_eq_some.2 ⟨id, hpath, hstep⟩
      have hbound := h.forest.length_lt hlonger
      obtain ⟨more, k, hk⟩ := ih _
        (by simp only [List.length_append, List.length_singleton] at hbound ⊢; omega)
        (List.append_ne_nil_of_right_ne_nil path (List.cons_ne_nil edge [])) hlonger rfl
      exact ⟨edge :: more, k, by simpa using hk⟩
    · obtain ⟨k, hk⟩ := List.exists_mem_of_ne_nil _ hdefinitions
      refine ⟨[], k, ?_⟩
      rw [List.append_nil, keysAt_of_follow hpath, Forest.listed_of_node? hm]
      exact hk

/-- The paths to the nodes below the roots are the beginnings of the live definitions. -/
theorem WellFormed.mem_beginnings_iff (h : t.WellFormed) :
    (phase, path) ∈ t.live.flatMap Definition.beginnings ↔
      path ≠ [] ∧ ∃ id, t.forest.follow (t.forest.root phase) path = some id := by
  rw [List.mem_flatMap]
  constructor
  · rintro ⟨d, hd, hmem⟩
    obtain ⟨k, hk⟩ := mem_live.1 hd
    obtain ⟨e, he, rfl⟩ := get?_eq_some.1 hk
    obtain ⟨phase', p, hplace, -, hfollow⟩ := h.exists_place? he
    obtain ⟨rfl, hne, more, hmore⟩ := (Definition.mem_beginnings hplace).1 hmem
    rw [← hmore, Forest.follow_append] at hfollow
    obtain ⟨id, hid, -⟩ := Option.bind_eq_some_iff.1 hfollow
    exact ⟨hne, id, hid⟩
  · rintro ⟨hne, id, hid⟩
    obtain ⟨more, k, hk⟩ := h.exists_mem_keysAt hne hid
    obtain ⟨d, p, hd, hplace, hedges⟩ := h.mem_keysAt.1 hk
    refine ⟨d, mem_live.2 ⟨k, hd⟩, (Definition.mem_beginnings hplace).2 ⟨rfl, hne, ?_⟩⟩
    rw [hedges]
    exact List.prefix_append _ _

/-- The number of nodes depends on the live definitions alone. -/
theorem WellFormed.nodeCount_eq (h : t.WellFormed) :
    t.nodeCount = 3 + (t.live.flatMap Definition.beginnings).toFinset.card := by
  let roots : Finset (Phase × List Edge) := {(.context, []), (.action, []), (.outcome, [])}
  have hroots (phase : Phase) (path : List Edge) : (phase, path) ∈ roots ↔ path = [] := by
    cases phase <;> simp [roots]
  have hdisjoint : Disjoint roots (t.live.flatMap Definition.beginnings).toFinset := by
    rw [Finset.disjoint_left]
    rintro ⟨phase, path⟩ hroot hbegins
    exact (h.mem_beginnings_iff.1 (List.mem_toFinset.1 hbegins)).1 ((hroots _ _).1 hroot)
  have hplaces (place : Phase × List Edge) :
      place ∈ roots ∪ (t.live.flatMap Definition.beginnings).toFinset ↔
        ∃ id, t.forest.follow (t.forest.root place.1) place.2 = some id := by
    obtain ⟨phase, path⟩ := place
    rw [Finset.mem_union, hroots, List.mem_toFinset, h.mem_beginnings_iff]
    by_cases hnil : path = []
    · subst hnil
      simp [Forest.follow]
    · simp [hnil]
  -- each node has its place, and each place its node
  have hcard : (roots ∪ (t.live.flatMap Definition.beginnings).toFinset).card =
      t.nodeKeys.card := by
    refine Finset.card_bij
      (fun place hplace => ((hplaces place).1 hplace).choose)
      (fun place hplace => ?_) (fun place hplace place' hplace' heq => ?_) (fun id hid => ?_)
    · exact mem_nodeKeys.2 (h.forest.exists_node?_of_follow_root
        ((hplaces place).1 hplace).choose_spec)
    · have hat := ((hplaces place).1 hplace).choose_spec
      have hat' := ((hplaces place').1 hplace').choose_spec
      exact Prod.ext_iff.2 (h.forest.follow_inj (heq ▸ hat) hat')
    · obtain ⟨n, hn⟩ := mem_nodeKeys.1 hid
      obtain ⟨phase, path, hpath⟩ := h.forest.reached hn
      have hplace := (hplaces (phase, path)).2 ⟨id, hpath⟩
      refine ⟨(phase, path), hplace, ?_⟩
      exact Option.some.inj (((hplaces _).1 hplace).choose_spec.symm.trans hpath)
  rw [← h.card_nodeKeys, ← hcard, Finset.card_union_of_disjoint hdisjoint]
  rfl

theorem WellFormed.nodeCount_congr (h : t.WellFormed) (h' : t'.WellFormed)
    (hlive : ∀ d, d ∈ t.live ↔ d ∈ t'.live) : t.nodeCount = t'.nodeCount := by
  rw [h.nodeCount_eq, h'.nodeCount_eq]
  congr 2
  ext place
  simp only [List.mem_toFinset, List.mem_flatMap, hlive]

theorem WellFormed.tidy (h : t.WellFormed) : t.Tidy where
  leads k e he := by
    obtain ⟨phase, p, hplace, -, hfollow⟩ := h.exists_place? he
    obtain ⟨n, hn, hk⟩ := Forest.exists_node?_of_listed (h.mem_listed.2 ⟨e, he, rfl⟩)
    exact ⟨phase, p.edges, n, Definition.address?_of_place? hplace, hfollow, hn, hk⟩
  lists id n hn := by
    rw [← Forest.listed_of_node? hn]
    exact ⟨h.nodup_listed id, fun k => h.mem_listed⟩
  siblings id n hn := h.forest.siblings hn
  down id n edge c hn hc := by
    have hstep := (Forest.child?_of_node? hn).trans ((h.forest.siblings hn).find?_eq_some.2 hc)
    exact Forest.exists_node?_of_parent? (h.forest.down hstep)
  up id n x edge hn hparent := by
    have hstep := h.forest.child?_of_parent? ((Forest.parent?_of_node? hn).trans hparent)
    obtain ⟨m, hm, hedge⟩ := Forest.child?_eq_some.1 hstep
    exact ⟨m, hm, Keyed.mem_of_find? hedge⟩
  roots := by
    refine ⟨fun _ _ => h.forest.root_inj, fun phase => ?_, fun id n hn => ⟨fun hparent => ?_, ?_⟩⟩
    · obtain ⟨n, hn, -⟩ := h.forest.root_live phase
      exact ⟨n, hn⟩
    · obtain ⟨phase, path, hpath⟩ := h.forest.reached hn
      rcases List.eq_nil_or_concat' path with rfl | ⟨path, edge, rfl⟩
      · exact ⟨phase, Option.some.inj hpath⟩
      · obtain ⟨x, -, hedge⟩ := Forest.follow_concat_eq_some.1 hpath
        have hnamed := h.forest.down hedge
        rw [Forest.parent?_of_node? hn, hparent] at hnamed
        cases hnamed
    · rintro ⟨phase, rfl⟩
      rw [← Forest.parent?_of_node? hn, h.forest.parent?_root]
  reached id n hn := by
    obtain ⟨phase, path, hpath⟩ := h.forest.reached hn
    refine ⟨(phase, path), hpath, fun place hplace => ?_⟩
    exact Prod.ext_iff.2 (h.forest.follow_inj hplace hpath)
  used id n hn hroot := by
    by_contra hdead
    obtain ⟨phase, path, hpath⟩ := h.forest.reached hn
    rcases List.eq_nil_or_concat' path with rfl | ⟨path, edge, rfl⟩
    · exact hroot phase (Option.some.inj hpath)
    · obtain ⟨x, -, hedge⟩ := Forest.follow_concat_eq_some.1 hpath
      have hparent := h.forest.down hedge
      rw [Forest.parent?_of_node? hn] at hparent
      have hused := h.used hn (hparent ▸ Option.some_ne_none _)
      rw [Node.isDead_iff.2 (by tauto)] at hused
      cases hused
  counted := ⟨t.nodeKeys, h.card_nodeKeys, fun _ => mem_nodeKeys⟩

end

/-- Every node of a tree serves its live definitions, whose beginnings are the paths to the nodes
below the roots. So trees with the same live definitions have as many nodes, whatever their past. -/
theorem Reachable.nodes_serve_live {t : MatchingTree} (ht : t.Reachable) :
    t.Tidy ∧ t.nodeCount = 3 + (t.live.flatMap Definition.beginnings).toFinset.card ∧
      ∀ t' : MatchingTree, t'.Reachable → (∀ d, d ∈ t'.live ↔ d ∈ t.live) →
        t'.nodeCount = t.nodeCount := by
  refine ⟨ht.wellFormed.tidy, ht.wellFormed.nodeCount_eq, fun t' ht' hlive => ?_⟩
  exact ht'.wellFormed.nodeCount_congr ht.wellFormed hlive

/-- Two definitions that share their first word, one of which is taken out again. -/
theorem nodes_serve_live_log :
    let log (declaration : String) : Definition :=
      ⟨"users", .phase .action, declaration, .optional, .native "log" none, none⟩
    let t := ((empty.run (.addOrUpdate (log "I log in"))).run
      (.addOrUpdate (log "I leave"))).run (.removeDefinition (log "I log in"))
    t.Reachable ∧ t.Tidy ∧ t.nodeCount = (empty.run (.addOrUpdate (log "I leave"))).nodeCount ∧
      t.nodeCount = 5 := by
  intro log t
  have ht : t.Reachable := .step _ (.step _ (.step _ .empty rfl) rfl) trivial
  have ht' : (empty.run (.addOrUpdate (log "I leave"))).Reachable := .step _ .empty rfl
  obtain ⟨htidy, -, hcount⟩ := ht.nodes_serve_live
  have hlive : (empty.run (.addOrUpdate (log "I leave"))).live = t.live := by decide +kernel
  exact ⟨ht, htidy, (hcount _ ht' fun d => by rw [hlive]).symm, by decide +kernel⟩

end MatchingTree

end StepLinker
