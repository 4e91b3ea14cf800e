import StepLinker.Proofs.Keyed
import StepLinker.Proofs.SlotMap
import StepLinker.Tree.Forest

/-!
# Well-formed forests

The nodes of a forest name one another by keys, so nothing in its type keeps them from making a
loop, naming a node that is gone, or disagreeing about who is whose parent. `WellFormed` says that
they do not: a child knows its parent and its edge, and every node lies on a path from a root. That
is enough for the rest: a node lies on one path only (`WellFormed.follow_inj`), is a child of the
parent it names (`WellFormed.child?_of_parent?`), and a path is shorter than there are nodes
(`WellFormed.length_lt`).
-/

namespace StepLinker

/-! ## Nodes -/

namespace Node

theorem child?_attach (n : Node) (edge : Edge) (child : SlotKey) (e : Edge) :
    (n.attach edge child).child? e = if edge = e then some child else n.child? e :=
  Keyed.find?_insert n.children edge e child

theorem child?_detach (n : Node) (edge e : Edge) :
    (n.detach edge).child? e = if edge = e then none else n.child? e :=
  Keyed.find?_erase n.children edge e

@[simp] theorem parent_attach (n : Node) (edge : Edge) (child : SlotKey) :
    (n.attach edge child).parent = n.parent := rfl

@[simp] theorem parent_detach (n : Node) (edge : Edge) : (n.detach edge).parent = n.parent := rfl

theorem isDead_iff {n : Node} : n.isDead = true ↔ n.definitions = [] ∧ n.children = [] := by
  simp [isDead]

theorem isDead_of_child? {n : Node} {edge : Edge} {c : SlotKey} (h : n.child? edge = some c) :
    n.isDead = false := by
  have hmem : (edge, c) ∈ n.children := Keyed.mem_of_find? h
  simp [isDead, List.ne_nil_of_mem hmem]

end Node

namespace Forest

section
variable {f : Forest} {id x y c : SlotKey} {n : Node} {edge : Edge} {path : List Edge}

def parent? (f : Forest) (id : SlotKey) : Option (SlotKey × Edge) :=
  (f.node? id).bind (·.parent)

def listed (f : Forest) (id : SlotKey) : List SlotKey :=
  ((f.node? id).map (·.definitions)).getD []

theorem child?_eq_some : f.child? id edge = some c ↔
    ∃ n, f.node? id = some n ∧ n.child? edge = some c :=
  Option.bind_eq_some_iff

theorem child?_of_node? (h : f.node? id = some n) : f.child? id edge = n.child? edge := by
  rw [child?, h, Option.bind_some]

theorem parent?_of_node? (h : f.node? id = some n) : f.parent? id = n.parent := by
  rw [parent?, h, Option.bind_some]

theorem listed_of_node? (h : f.node? id = some n) : f.listed id = n.definitions := by
  rw [listed, h]
  rfl

theorem exists_node?_of_listed {k : SlotKey} (h : k ∈ f.listed id) :
    ∃ n, f.node? id = some n ∧ k ∈ n.definitions := by
  cases hn : f.node? id with
  | none => simp [listed, hn] at h
  | some n => exact ⟨n, rfl, listed_of_node? hn ▸ h⟩

theorem exists_node?_of_parent? {link : SlotKey × Edge} (h : f.parent? id = some link) :
    ∃ n, f.node? id = some n ∧ n.parent = some link :=
  Option.bind_eq_some_iff.1 h

/-! ## Paths -/

theorem follow_cons_eq_some : f.follow id (edge :: path) = some y ↔
    ∃ c, f.child? id edge = some c ∧ f.follow c path = some y :=
  Option.bind_eq_some_iff

theorem follow_append (f : Forest) (id : SlotKey) (path more : List Edge) :
    f.follow id (path ++ more) = (f.follow id path).bind (f.follow · more) := by
  induction path generalizing id with
  | nil => rfl
  | cons edge path ih =>
    simp only [List.cons_append, follow]
    cases f.child? id edge with
    | none => rfl
    | some c => exact ih c

theorem follow_concat_eq_some : f.follow id (path ++ [edge]) = some y ↔
    ∃ x, f.follow id path = some x ∧ f.child? x edge = some y := by
  rw [follow_append, Option.bind_eq_some_iff]
  simp [follow]

end

/-! ## The invariant -/

structure WellFormed (f : Forest) : Prop where
  slots : f.nodes.WellFormed
  root_live : ∀ phase, ∃ n, f.node? (f.root phase) = some n ∧ n.parent = none
  root_inj : ∀ {phase phase'}, f.root phase = f.root phase' → phase = phase'
  down : ∀ {id edge c}, f.child? id edge = some c → f.parent? c = some (id, edge)
  siblings : ∀ {id n}, f.node? id = some n → n.children.Distinct
  reached : ∀ {id n}, f.node? id = some n → ∃ phase path, f.follow (f.root phase) path = some id

section
variable {f : Forest} {phase phase' : Phase} {id x : SlotKey} {n : Node} {edge : Edge}
  {path path' : List Edge}

theorem WellFormed.parent?_root (h : f.WellFormed) (phase : Phase) :
    f.parent? (f.root phase) = none := by
  obtain ⟨n, hn, hparent⟩ := h.root_live phase
  rw [parent?_of_node? hn, hparent]

theorem WellFormed.exists_node?_of_follow (h : f.WellFormed) (hid : f.node? id = some n)
    (hpath : f.follow id path = some x) : ∃ m, f.node? x = some m := by
  induction path generalizing id n with
  | nil =>
    cases hpath
    exact ⟨n, hid⟩
  | cons edge path ih =>
    obtain ⟨c, hc, hpath⟩ := follow_cons_eq_some.1 hpath
    obtain ⟨m, hm, -⟩ := exists_node?_of_parent? (h.down hc)
    exact ih hm hpath

theorem WellFormed.exists_node?_of_follow_root (h : f.WellFormed)
    (hpath : f.follow (f.root phase) path = some x) : ∃ m, f.node? x = some m := by
  obtain ⟨n, hn, -⟩ := h.root_live phase
  exact h.exists_node?_of_follow hn hpath

/-- A node lies on one path from one root. -/
theorem WellFormed.follow_inj (h : f.WellFormed) (hpath : f.follow (f.root phase) path = some x)
    (hpath' : f.follow (f.root phase') path' = some x) : phase = phase' ∧ path = path' := by
  induction path using List.reverseRecOn generalizing x path' with
  | nil =>
    obtain rfl : f.root phase = x := Option.some.inj hpath
    rcases List.eq_nil_or_concat' path' with rfl | ⟨path', edge, rfl⟩
    · exact ⟨h.root_inj (Option.some.inj hpath').symm, rfl⟩
    · obtain ⟨y, -, hedge⟩ := follow_concat_eq_some.1 hpath'
      have hparent := h.down hedge
      rw [h.parent?_root] at hparent
      cases hparent
  | append_singleton path edge ih =>
    obtain ⟨y, hy, hedge⟩ := follow_concat_eq_some.1 hpath
    have hparent := h.down hedge
    rcases List.eq_nil_or_concat' path' with rfl | ⟨path', edge', rfl⟩
    · obtain rfl : f.root phase' = x := Option.some.inj hpath'
      rw [h.parent?_root] at hparent
      cases hparent
    · obtain ⟨y', hy', hedge'⟩ := follow_concat_eq_some.1 hpath'
      -- the node names one parent and one edge
      have hparent' := h.down hedge'
      rw [hparent] at hparent'
      cases hparent'
      obtain ⟨rfl, rfl⟩ := ih hy hy'
      exact ⟨rfl, rfl⟩

theorem WellFormed.follow_inj_from (h : f.WellFormed) (hid : f.node? id = some n)
    (hpath : f.follow id path = some x) (hpath' : f.follow id path' = some x) : path = path' := by
  obtain ⟨phase, before, hbefore⟩ := h.reached hid
  have hwhole : f.follow (f.root phase) (before ++ path) = some x := by
    rw [follow_append, hbefore, Option.bind_some, hpath]
  have hwhole' : f.follow (f.root phase) (before ++ path') = some x := by
    rw [follow_append, hbefore, Option.bind_some, hpath']
  exact List.append_cancel_left (h.follow_inj hwhole hwhole').2

theorem WellFormed.eq_nil_of_follow (h : f.WellFormed) (hid : f.node? id = some n)
    (hpath : f.follow id path = some id) : path = [] :=
  h.follow_inj_from hid hpath rfl

theorem WellFormed.child?_of_parent? (h : f.WellFormed) (hparent : f.parent? id = some (x, edge)) :
    f.child? x edge = some id := by
  obtain ⟨n, hn, -⟩ := exists_node?_of_parent? hparent
  obtain ⟨phase, path, hpath⟩ := h.reached hn
  rcases List.eq_nil_or_concat' path with rfl | ⟨path, edge', rfl⟩
  · obtain rfl : f.root phase = id := Option.some.inj hpath
    rw [h.parent?_root] at hparent
    cases hparent
  · obtain ⟨y, -, hedge⟩ := follow_concat_eq_some.1 hpath
    have hparent' := h.down hedge
    rw [hparent] at hparent'
    cases hparent'
    exact hedge

theorem mem_keys_of_node? (h : f.node? id = some n) :
    id ∈ (f.nodes.entries.map (·.1)).toFinset :=
  List.mem_toFinset.2 (List.mem_map.2 ⟨(id, n), SlotMap.mem_entries.2 h, rfl⟩)

/-- A path from a root is shorter than there are nodes, as it comes by a new one with each edge. -/
theorem WellFormed.length_lt (h : f.WellFormed) (hpath : f.follow (f.root phase) path = some x) :
    path.length < f.nodes.size := by
  have hbegins (i : Nat) : ∃ y, f.follow (f.root phase) (path.take i) = some y := by
    rw [← List.take_append_drop i path, follow_append] at hpath
    obtain ⟨y, hy, -⟩ := Option.bind_eq_some_iff.1 hpath
    exact ⟨y, hy⟩
  choose place hplace using hbegins
  have hmaps : ∀ i ∈ Finset.range (path.length + 1),
      place i ∈ (f.nodes.entries.map (·.1)).toFinset := by
    intro i _
    obtain ⟨m, hm⟩ := h.exists_node?_of_follow_root (hplace i)
    exact mem_keys_of_node? hm
  have hinj : Set.InjOn place (Finset.range (path.length + 1)) := by
    intro i hi j hj hij
    have htake := (h.follow_inj (hplace i) (hij ▸ hplace j)).2
    have hlength := congrArg List.length htake
    simp only [Finset.coe_range, Set.mem_Iio, List.length_take] at hi hj hlength
    omega
  have hcard := Finset.card_le_card_of_injOn place hmaps hinj
  have hkeys := List.toFinset_card_le (f.nodes.entries.map (·.1))
  rw [List.length_map, SlotMap.length_entries h.slots] at hkeys
  rw [Finset.card_range] at hcard
  omega

theorem WellFormed.size_pos (h : f.WellFormed) : 0 < f.nodes.size := by
  have hroot : f.follow (f.root .context) [] = some f.context := rfl
  exact h.length_lt hroot

end

end Forest

end StepLinker
