import StepLinker.Proofs.Tree.Forest

/-!
# Growing and pruning a forest

A forest changes in three ways: a node lists other keys (`WellFormed.modify`), the nodes that a path
still needs are made (`WellFormed.grow`), and a node that is dead is taken out with all above it that
dies with it (`WellFormed.prune`). None of them touches what another node lists, or a path to a node
that lists something. Between two changes no node below a root is dead (`Used`); on the way one may
be (`UsedBut`), and that is the one that a pruning begins with.
-/

namespace StepLinker.Forest

/-- No node below a root is dead, `x` apart. -/
def UsedBut (f : Forest) (x : SlotKey) : Prop :=
  ∀ ⦃id n⦄, id ≠ x → f.node? id = some n → n.parent ≠ none → n.isDead = false

def Used (f : Forest) : Prop :=
  ∀ ⦃id n⦄, f.node? id = some n → n.parent ≠ none → n.isDead = false

section
variable {f f' f'' : Forest} {phase : Phase} {id x y c k : SlotKey} {n m : Node} {edge : Edge}
  {path : List Edge}

theorem Used.usedBut (h : f.Used) (x : SlotKey) : f.UsedBut x :=
  fun _ _ _ hn => h hn

theorem UsedBut.used (h : f.UsedBut x)
    (hx : ∀ n, f.node? x = some n → n.parent ≠ none → n.isDead = false) : f.Used := by
  intro id n hn hparent
  by_cases hid : id = x
  · subst hid
    exact hx n hn hparent
  · exact h hid hn hparent

theorem UsedBut.used_of_listed (h : f.UsedBut x) (hx : f.listed x ≠ []) : f.Used := by
  refine h.used fun n hn _ => ?_
  rw [listed_of_node? hn] at hx
  simp [Node.isDead, hx]

/-! ## The roots alone -/

theorem entries_empty : empty.nodes.entries =
    [(empty.context, .root), (empty.action, .root), (empty.outcome, .root)] :=
  rfl

theorem node?_empty (h : empty.node? id = some n) : n = .root ∧ ∃ phase, empty.root phase = id := by
  have hmem := SlotMap.mem_entries.2 h
  rw [entries_empty] at hmem
  simp only [List.mem_cons, Prod.mk.injEq, List.not_mem_nil, or_false] at hmem
  obtain ⟨rfl, rfl⟩ | ⟨rfl, rfl⟩ | ⟨rfl, rfl⟩ := hmem
  · exact ⟨rfl, .context, rfl⟩
  · exact ⟨rfl, .action, rfl⟩
  · exact ⟨rfl, .outcome, rfl⟩

theorem child?_empty (id : SlotKey) (edge : Edge) : empty.child? id edge = none := by
  cases hc : empty.child? id edge with
  | none => rfl
  | some c =>
    obtain ⟨n, hn, hc⟩ := child?_eq_some.1 hc
    obtain ⟨rfl, -⟩ := node?_empty hn
    cases hc

theorem listed_empty (id : SlotKey) : empty.listed id = [] := by
  cases hn : empty.node? id with
  | none => rw [listed, hn]; rfl
  | some n =>
    obtain ⟨rfl, -⟩ := node?_empty hn
    exact listed_of_node? hn

theorem wellFormed_empty : empty.WellFormed where
  slots := ((SlotMap.wellFormed_empty.insert _).insert _).insert _
  root_live phase := ⟨.root, by cases phase <;> rfl, rfl⟩
  root_inj {phase phase'} h := by cases phase <;> cases phase' <;> first | rfl | cases h
  down hc := by
    rw [child?_empty] at hc
    cases hc
  siblings hn := by
    obtain ⟨rfl, -⟩ := node?_empty hn
    exact List.nodup_nil
  reached hn := by
    obtain ⟨-, phase, hroot⟩ := node?_empty hn
    exact ⟨phase, [], by rw [hroot]; rfl⟩

theorem used_empty : empty.Used := by
  intro id n hn hparent
  obtain ⟨rfl, -⟩ := node?_empty hn
  exact absurd rfl hparent

/-! ## Changing a node -/

theorem node?_modify (f : Forest) (id : SlotKey) (change : Node → Node) (k : SlotKey) :
    (f.modify id change).node? k = if k = id then (f.node? id).map change else f.node? k :=
  SlotMap.get?_modify f.nodes id k change

@[simp] theorem root_modify (f : Forest) (id : SlotKey) (change : Node → Node) (phase : Phase) :
    (f.modify id change).root phase = f.root phase := by
  cases phase <;> rfl

/-- The forests have the same nodes with the same links, and may list different keys. -/
structure SameLinks (f f' : Forest) : Prop where
  slots : f.nodes.WellFormed → f'.nodes.WellFormed
  size : f'.nodes.size = f.nodes.size
  root : ∀ phase, f'.root phase = f.root phase
  links : ∀ id, (f'.node? id).map (fun n => (n.parent, n.children)) =
    (f.node? id).map fun n => (n.parent, n.children)

theorem sameLinks_modify (f : Forest) (id : SlotKey) {change : Node → Node}
    (h : ∀ n, (change n).parent = n.parent ∧ (change n).children = n.children) :
    f.SameLinks (f.modify id change) where
  slots hf := hf.modify id change
  size := SlotMap.size_modify f.nodes id change
  root := root_modify f id change
  links k := by
    rw [node?_modify]
    split
    · next hk =>
      subst hk
      cases f.node? k <;> simp [h]
    · rfl

theorem SameLinks.node?_eq_some (h : f.SameLinks f') (hn : f'.node? id = some n) :
    ∃ m, f.node? id = some m ∧ m.parent = n.parent ∧ m.children = n.children := by
  have hlinks := h.links id
  rw [hn, Option.map_some, eq_comm, Option.map_eq_some_iff] at hlinks
  obtain ⟨m, hm, hlinks⟩ := hlinks
  exact ⟨m, hm, (Prod.mk.inj hlinks).1, (Prod.mk.inj hlinks).2⟩

theorem SameLinks.symm (h : f.SameLinks f') (hf : f.nodes.WellFormed) : f'.SameLinks f where
  slots _ := hf
  size := h.size.symm
  root phase := (h.root phase).symm
  links id := (h.links id).symm

theorem SameLinks.child? (h : f.SameLinks f') (id : SlotKey) (edge : Edge) :
    f'.child? id edge = f.child? id edge := by
  have hlinks := congrArg (·.bind fun (_, children) => Keyed.find? children edge) (h.links id)
  simp only [Option.bind_map] at hlinks
  exact hlinks

theorem SameLinks.parent? (h : f.SameLinks f') (id : SlotKey) : f'.parent? id = f.parent? id := by
  have hlinks := congrArg (·.bind fun (parent, _) => parent) (h.links id)
  simp only [Option.bind_map] at hlinks
  exact hlinks

theorem SameLinks.follow (h : f.SameLinks f') (id : SlotKey) (path : List Edge) :
    f'.follow id path = f.follow id path := by
  induction path generalizing id with
  | nil => rfl
  | cons edge path ih => simp only [Forest.follow, h.child?, ih]

theorem WellFormed.of_sameLinks (hf : f.WellFormed) (h : f.SameLinks f') : f'.WellFormed where
  slots := h.slots hf.slots
  root_live phase := by
    obtain ⟨n, hn, hparent⟩ := hf.root_live phase
    obtain ⟨m, hm, hparent', -⟩ := (h.symm hf.slots).node?_eq_some hn
    exact ⟨m, h.root phase ▸ hm, hparent'.trans hparent⟩
  root_inj hroot := hf.root_inj (by rwa [h.root, h.root] at hroot)
  down hc := by
    rw [h.child?] at hc
    rw [h.parent?, hf.down hc]
  siblings hn := by
    obtain ⟨m, hm, -, hchildren⟩ := h.node?_eq_some hn
    exact hchildren ▸ hf.siblings hm
  reached hn := by
    obtain ⟨m, hm, -⟩ := h.node?_eq_some hn
    obtain ⟨phase, path, hpath⟩ := hf.reached hm
    exact ⟨phase, path, by rw [h.root, h.follow, hpath]⟩

theorem listed_modify_enlist (hid : f.node? id = some n) (k x : SlotKey) :
    (f.modify id (·.enlist k)).listed x = f.listed x ++ if x = id then [k] else [] := by
  rw [listed, listed, node?_modify]
  by_cases hx : x = id
  · simp [hx, hid, Node.enlist]
  · simp [hx]

theorem listed_modify_strike (f : Forest) (id k x : SlotKey) :
    (f.modify id (·.strike k)).listed x =
      if x = id then (f.listed x).filter (· ≠ k) else f.listed x := by
  rw [listed, listed, node?_modify]
  by_cases hx : x = id
  · subst hx
    cases hn : f.node? x <;> simp [Node.strike]
  · simp [hx]

theorem UsedBut.modify (h : f.UsedBut id) (change : Node → Node) :
    (f.modify id change).UsedBut id := by
  intro x n hx hn hparent
  rw [node?_modify, if_neg hx] at hn
  exact h hx hn hparent

/-! ## Growing -/

/-- The second forest has all nodes of the first with their links, and the nodes that are new list
nothing. -/
structure Extends (f f' : Forest) : Prop where
  root : ∀ phase, f'.root phase = f.root phase
  child : ∀ {id edge c}, f.child? id edge = some c → f'.child? id edge = some c
  listed : ∀ id, f'.listed id = f.listed id

theorem Extends.refl (f : Forest) : f.Extends f :=
  ⟨fun _ => rfl, id, fun _ => rfl⟩

theorem Extends.trans (h : f.Extends f') (h' : f'.Extends f'') : f.Extends f'' where
  root phase := (h'.root phase).trans (h.root phase)
  child hc := h'.child (h.child hc)
  listed id := (h'.listed id).trans (h.listed id)

theorem Extends.follow (h : f.Extends f') (hpath : f.follow id path = some x) :
    f'.follow id path = some x := by
  induction path generalizing id with
  | nil => exact hpath
  | cons edge path ih =>
    obtain ⟨c, hc, hpath⟩ := follow_cons_eq_some.1 hpath
    exact follow_cons_eq_some.2 ⟨c, h.child hc, ih hpath⟩

/-- What making a child does: there is a node more, under a key that was not in use. -/
structure Bud (f : Forest) (id : SlotKey) (edge : Edge) (c : SlotKey) (f' : Forest) : Prop where
  slots : f'.nodes.WellFormed
  root : ∀ phase, f'.root phase = f.root phase
  parent : ∃ n, f.node? id = some n
  free : f.node? c = none
  bare : f.child? id edge = none
  node? : ∀ k, f'.node? k = if k = c then some ⟨some (id, edge), [], []⟩
    else (f.node? k).map fun n => if k = id then n.attach edge c else n

theorem WellFormed.bud (h : f.WellFormed) (hid : f.node? id = some n)
    (hbare : f.child? id edge = none) :
    f.Bud id edge (f.createChild id edge).1 (f.createChild id edge).2 := by
  have hfree := SlotMap.get?_insert_fst h.slots ⟨some (id, edge), [], []⟩
  have hinsert := SlotMap.get?_insert h.slots ⟨some (id, edge), [], []⟩
  have hslots := h.slots.insert ⟨some (id, edge), [], []⟩
  unfold Forest.createChild
  generalize f.nodes.insert ⟨some (id, edge), [], []⟩ = r at hfree hinsert hslots ⊢
  obtain ⟨c, nodes⟩ := r
  have hne : id ≠ c := by
    rintro rfl
    rw [← Forest.node?, hid] at hfree
    cases hfree
  refine ⟨hslots.modify _ _, fun phase => by cases phase <;> rfl, ⟨n, hid⟩, hfree, hbare,
    fun k => ?_⟩
  rw [node?_modify]
  show (if k = id then (nodes.get? id).map _ else nodes.get? k) = _
  rw [hinsert, hinsert, if_neg hne]
  by_cases hk : k = id
  · subst hk
    simp [hne, Forest.node?]
  · simp [hk, Forest.node?]

theorem Bud.ne (h : f.Bud id edge c f') (hk : f.node? k = some n) : k ≠ c := by
  rintro rfl
  rw [h.free] at hk
  cases hk

theorem Bud.child? (h : f.Bud id edge c f') (k : SlotKey) (e : Edge) :
    f'.child? k e = if k = id ∧ edge = e then some c else f.child? k e := by
  obtain ⟨n, hid⟩ := h.parent
  rw [Forest.child?, h.node?, Forest.child?]
  by_cases hk : k = c
  · subst hk
    simp [h.free, (h.ne hid).symm, Node.child?, Keyed.find?]
  · rw [if_neg hk]
    by_cases hkid : k = id
    · subst hkid
      simp [hid, Node.child?_attach]
    · simp [hkid]

theorem Bud.parent? (h : f.Bud id edge c f') (k : SlotKey) :
    f'.parent? k = if k = c then some (id, edge) else f.parent? k := by
  rw [Forest.parent?, h.node?, Forest.parent?]
  by_cases hk : k = c
  · simp [hk]
  · rw [if_neg hk, if_neg hk]
    cases f.node? k with
    | none => rfl
    | some n => by_cases hkid : k = id <;> simp [hkid]

theorem Bud.listed (h : f.Bud id edge c f') (k : SlotKey) : f'.listed k = f.listed k := by
  rw [Forest.listed, h.node?, Forest.listed]
  by_cases hk : k = c
  · simp [hk, h.free]
  · rw [if_neg hk]
    cases f.node? k with
    | none => rfl
    | some n => by_cases hkid : k = id <;> simp [hkid, Node.attach]

theorem Bud.child?_parent (h : f.Bud id edge c f') : f'.child? id edge = some c := by
  rw [h.child?, if_pos ⟨rfl, rfl⟩]

theorem Bud.extends (h : f.Bud id edge c f') : f.Extends f' where
  root := h.root
  child {k e x} hx := by
    rw [h.child?, if_neg, hx]
    rintro ⟨rfl, rfl⟩
    rw [h.bare] at hx
    cases hx
  listed := h.listed

theorem WellFormed.of_bud (hf : f.WellFormed) (h : f.Bud id edge c f') : f'.WellFormed where
  slots := h.slots
  root_live phase := by
    obtain ⟨n, hn, hparent⟩ := hf.root_live phase
    rw [h.root, h.node?, if_neg (h.ne hn), hn]
    exact ⟨_, rfl, by split <;> exact hparent⟩
  root_inj heq := hf.root_inj (by rwa [h.root, h.root] at heq)
  down {k e x} hx := by
    rw [h.child?] at hx
    split at hx
    · next hk =>
      obtain ⟨rfl, rfl⟩ := hk
      cases hx
      rw [h.parent?, if_pos rfl]
    · obtain ⟨n, hn, -⟩ := exists_node?_of_parent? (hf.down hx)
      rw [h.parent?, if_neg (h.ne hn), hf.down hx]
  siblings {k n} hn := by
    rw [h.node?] at hn
    split at hn
    · cases hn
      exact List.nodup_nil
    · obtain ⟨m, hm, rfl⟩ := Option.map_eq_some_iff.1 hn
      split
      · exact (hf.siblings hm).insert edge c
      · exact hf.siblings hm
  reached {k n} hn := by
    have hold {k : SlotKey} {n : Node} (hn : f.node? k = some n) :
        ∃ phase path, f'.follow (f'.root phase) path = some k := by
      obtain ⟨phase, path, hpath⟩ := hf.reached hn
      exact ⟨phase, path, by rw [h.root]; exact h.extends.follow hpath⟩
    rw [h.node?] at hn
    split at hn
    · next hk =>
      obtain ⟨m, hm⟩ := h.parent
      obtain ⟨phase, path, hpath⟩ := hold hm
      exact ⟨phase, path ++ [edge], follow_concat_eq_some.2 ⟨id, hpath, hk ▸ h.child?_parent⟩⟩
    · obtain ⟨m, hm, -⟩ := Option.map_eq_some_iff.1 hn
      exact hold hm

theorem Bud.usedBut (h : f.Bud id edge c f') (hused : f.UsedBut id) : f'.UsedBut c := by
  intro k n hk hn hparent
  rw [h.node?, if_neg hk] at hn
  obtain ⟨m, hm, rfl⟩ := Option.map_eq_some_iff.1 hn
  split at hparent
  · next hkid =>
    rw [if_pos hkid]
    exact Node.isDead_of_child? ((Node.child?_attach m edge c edge).trans (if_pos rfl))
  · next hkid =>
    rw [if_neg hkid]
    exact hused hkid hm hparent

/-- What growing a path does: it leads to the node that is returned, which is the only one that may
be dead. -/
structure Grown (f : Forest) (id : SlotKey) (path : List Edge) (x : SlotKey) (f' : Forest) :
    Prop where
  wellFormed : f'.WellFormed
  extend : f.Extends f'
  leads : f'.follow id path = some x
  used : f.UsedBut id → f'.UsedBut x

theorem WellFormed.grow (h : f.WellFormed) (hid : f.node? id = some n) (path : List Edge) :
    f.Grown id path (f.grow id path).1 (f.grow id path).2 := by
  induction path generalizing f id n with
  | nil => exact ⟨h, .refl f, rfl, fun hused => hused⟩
  | cons edge path ih =>
    cases hc : f.child? id edge with
    | some c =>
      obtain ⟨m, hm, -⟩ := exists_node?_of_parent? (h.down hc)
      obtain ⟨hwell, hextend, hleads, hused⟩ := ih h hm
      simp only [Forest.grow, hc]
      refine ⟨hwell, hextend, follow_cons_eq_some.2 ⟨c, hextend.child hc, hleads⟩, fun hbut => ?_⟩
      -- the node has a child, so it is not dead
      refine hused (Used.usedBut (hbut.used fun n hn _ => ?_) c)
      exact Node.isDead_of_child? ((child?_of_node? hn).symm.trans hc)
    | none =>
      have hbud := h.bud hid hc
      obtain ⟨m, hm, -⟩ := exists_node?_of_parent? ((h.of_bud hbud).down hbud.child?_parent)
      obtain ⟨hwell, hextend, hleads, hused⟩ := ih (h.of_bud hbud) hm
      simp only [Forest.grow, hc]
      exact ⟨hwell, hbud.extends.trans hextend,
        follow_cons_eq_some.2 ⟨_, hextend.child hbud.child?_parent, hleads⟩,
        fun hbut => hused (hbud.usedBut hbut)⟩

theorem grow_of_follow (h : f.follow id path = some x) : f.grow id path = (x, f) := by
  induction path generalizing id with
  | nil =>
    cases h
    rfl
  | cons edge path ih =>
    obtain ⟨c, hc, h⟩ := follow_cons_eq_some.1 h
    simp only [grow, hc, ih h]

/-! ## Pruning -/

/-- What taking out a dead node does: all that is gone is the node and the edge to it. -/
structure Cut (f : Forest) (id parent : SlotKey) (edge : Edge) (f' : Forest) : Prop where
  slots : f'.nodes.WellFormed
  size : f'.nodes.size + 1 = f.nodes.size
  root : ∀ phase, f'.root phase = f.root phase
  link : f.parent? id = some (parent, edge)
  dead : ∀ n, f.node? id = some n → n.isDead = true
  node? : ∀ k, f'.node? k =
    if k = id then none
    else (f.node? k).map fun n => if k = parent then n.detach edge else n

theorem WellFormed.cut (h : f.WellFormed) {nodes : SlotMap Node} {parent : SlotKey}
    (herase : f.nodes.erase id = some (n, nodes)) (hdead : n.isDead = true)
    (hparent : n.parent = some (parent, edge)) :
    f.Cut id parent edge ({ f with nodes := nodes }.modify parent (·.detach edge)) := by
  have hid : f.node? id = some n := (SlotMap.erase_eq_some.1 herase).1
  refine ⟨(h.slots.erase herase).modify _ _, ?_, fun phase => ?_, ?_, ?_, fun k => ?_⟩
  · rw [← h.slots.size_erase herase, modify, SlotMap.size_modify]
  · cases phase <;> rfl
  · rw [parent?_of_node? hid, hparent]
  · intro m hm
    rw [hid] at hm
    cases hm
    exact hdead
  · rw [node?_modify]
    show (if k = parent then (nodes.get? parent).map _ else nodes.get? k) = _
    rw [SlotMap.get?_erase herase, SlotMap.get?_erase herase]
    by_cases hk : k = parent
    · subst hk
      by_cases hki : k = id
      · simp [hki]
      · simp [hki, node?]
    · simp [hk, node?]

section
variable {parent : SlotKey}

theorem Cut.child?_eq_none (h : f.Cut id parent edge f') (e : Edge) : f.child? id e = none := by
  cases hc : f.child? id e with
  | none => rfl
  | some c =>
    obtain ⟨n, hn, hc⟩ := child?_eq_some.1 hc
    have hdead := h.dead n hn
    rw [Node.isDead_of_child? hc] at hdead
    cases hdead

theorem Cut.child? (h : f.Cut id parent edge f') (k : SlotKey) (e : Edge) :
    f'.child? k e = if k = parent ∧ edge = e then none else f.child? k e := by
  rw [Forest.child?, h.node?]
  by_cases hk : k = id
  · subst hk
    simp [h.child?_eq_none]
  · rw [if_neg hk, Forest.child?]
    cases f.node? k with
    | none => simp
    | some n => by_cases hkp : k = parent <;> simp [hkp, Node.child?_detach]

theorem Cut.parent? (h : f.Cut id parent edge f') {k : SlotKey} (hk : k ≠ id) :
    f'.parent? k = f.parent? k := by
  rw [Forest.parent?, h.node?, if_neg hk, Forest.parent?]
  cases f.node? k with
  | none => rfl
  | some n => by_cases hkp : k = parent <;> simp [hkp]

theorem Cut.listed (h : f.Cut id parent edge f') (k : SlotKey) : f'.listed k = f.listed k := by
  rw [Forest.listed, h.node?, Forest.listed]
  by_cases hk : k = id
  · subst hk
    obtain ⟨n, hn, -⟩ := exists_node?_of_parent? h.link
    simp [hn, (Node.isDead_iff.1 (h.dead n hn)).1]
  · rw [if_neg hk]
    cases f.node? k with
    | none => rfl
    | some n => by_cases hkp : k = parent <;> simp [hkp, Node.detach]

/-- A path to another node is still there, as it does not come by the node that is gone. -/
theorem Cut.follow (hf : f.WellFormed) (h : f.Cut id parent edge f') (hy : y ≠ id)
    (hpath : f.follow x path = some y) : f'.follow x path = some y := by
  induction path generalizing x with
  | nil => exact hpath
  | cons e path ih =>
    obtain ⟨c, hc, hpath⟩ := follow_cons_eq_some.1 hpath
    refine follow_cons_eq_some.2 ⟨c, ?_, ih hpath⟩
    rw [h.child?, if_neg, hc]
    rintro ⟨rfl, rfl⟩
    -- a path by this edge ends at the node that is gone, as nothing is below it
    rw [hf.child?_of_parent? h.link] at hc
    cases hc
    cases path with
    | nil => exact hy (Option.some.inj hpath).symm
    | cons e path =>
      obtain ⟨c, hc, -⟩ := follow_cons_eq_some.1 hpath
      rw [h.child?_eq_none] at hc
      cases hc

theorem WellFormed.of_cut (hf : f.WellFormed) (h : f.Cut id parent edge f') : f'.WellFormed where
  slots := h.slots
  root_live phase := by
    obtain ⟨n, hn, hparent⟩ := hf.root_live phase
    have hne : f.root phase ≠ id := by
      rintro rfl
      have hlink := h.link
      rw [hf.parent?_root] at hlink
      cases hlink
    rw [h.root, h.node?, if_neg hne, hn]
    exact ⟨_, rfl, by split <;> exact hparent⟩
  root_inj heq := hf.root_inj (by rwa [h.root, h.root] at heq)
  down := by
    intro k e c hc
    rw [h.child?] at hc
    split at hc
    · cases hc
    · next hother =>
      have hlink := hf.down hc
      rw [h.parent? fun heq => ?_, hlink]
      -- the node that is gone was behind one edge, and that is gone too
      rw [heq, h.link] at hlink
      cases hlink
      exact hother ⟨rfl, rfl⟩
  siblings := by
    intro k m hm
    rw [h.node?] at hm
    split at hm
    · cases hm
    · obtain ⟨n, hn, rfl⟩ := Option.map_eq_some_iff.1 hm
      split
      · exact (hf.siblings hn).erase edge
      · exact hf.siblings hn
  reached := by
    intro k m hm
    rw [h.node?] at hm
    split at hm
    · cases hm
    · next hk =>
      obtain ⟨n, hn, -⟩ := Option.map_eq_some_iff.1 hm
      obtain ⟨phase, path, hpath⟩ := hf.reached hn
      exact ⟨phase, path, by rw [h.root]; exact h.follow hf hk hpath⟩

theorem Cut.usedBut (h : f.Cut id parent edge f') (hused : f.UsedBut id) : f'.UsedBut parent := by
  intro k m hkp hm hmparent
  rw [h.node?] at hm
  split at hm
  · cases hm
  · next hk =>
    obtain ⟨n, hn, rfl⟩ := Option.map_eq_some_iff.1 hm
    exact hused hk hn hmparent

end

/-- What pruning does: no node is left dead, and those that list something are where they were. -/
structure Pruned (f : Forest) (id : SlotKey) (f' : Forest) : Prop where
  wellFormed : f'.WellFormed
  root : ∀ phase, f'.root phase = f.root phase
  listed : ∀ k, f'.listed k = f.listed k
  follow : ∀ {x path y}, f.listed y ≠ [] → f.follow x path = some y → f'.follow x path = some y
  used : f.UsedBut id → f'.Used

theorem Pruned.of_not_dead (h : f.WellFormed)
    (hid : ∀ n, f.node? id = some n → n.parent ≠ none → n.isDead = false) : f.Pruned id f :=
  ⟨h, fun _ => rfl, fun _ => rfl, fun _ hpath => hpath, fun hused => hused.used hid⟩

theorem WellFormed.prune (h : f.WellFormed) {fuel : Nat} (hfuel : f.nodes.size ≤ fuel)
    (id : SlotKey) : f.Pruned id (f.prune fuel id) := by
  induction fuel generalizing f id with
  | zero => exact absurd h.size_pos (by omega)
  | succ fuel ih =>
    unfold Forest.prune
    split
    · next herase =>
      refine .of_not_dead h fun n hn _ => ?_
      have hnone : f.node? id = none := Option.map_eq_none_iff.1 herase
      rw [hn] at hnone
      cases hnone
    · next n nodes herase =>
      have hid : f.node? id = some n := (SlotMap.erase_eq_some.1 herase).1
      split
      · next hdead =>
        split
        · next hparent =>
          refine .of_not_dead h fun m hm hmparent => ?_
          rw [hid] at hm
          cases hm
          exact absurd hparent hmparent
        · next parent edge hparent =>
          have hcut := h.cut herase hdead hparent
          have hsize := hcut.size
          obtain ⟨hwell, hroot, hlisted, hfollow, hused⟩ :=
            ih (h.of_cut hcut) (by omega) parent
          refine ⟨hwell, fun phase => (hroot phase).trans (hcut.root phase),
            fun k => (hlisted k).trans (hcut.listed k), fun {x path y} hy hpath => ?_,
            fun hbut => hused (hcut.usedBut hbut)⟩
          have hne : y ≠ id := by
            rintro rfl
            rw [listed_of_node? hid] at hy
            exact hy (Node.isDead_iff.1 hdead).1
          exact hfollow (by rwa [hcut.listed]) (hcut.follow h hne hpath)
      · next hdead =>
        refine .of_not_dead h fun m hm _ => ?_
        rw [hid] at hm
        cases hm
        exact Bool.eq_false_iff.2 hdead

end

end StepLinker.Forest
