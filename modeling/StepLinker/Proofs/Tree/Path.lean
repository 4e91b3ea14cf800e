import StepLinker.Proofs.Tree.Invariant
import StepLinker.Proofs.Tree.Walk

/-!
# Walks down one path

What a walk of a well-formed tree says about a definition depends on the path of the definition
alone. The edges of siblings differ and every node has one place, so of all that a walk comes across
the sightings of one key are those on its own path, in the order of the walk (`filter_sightings`):
`Query.along` goes down that path alone, without stopping to ask whether a stop is of use. So the
results of a search are those of the definitions, one by one (`WellFormed.mem_search`).
-/

namespace StepLinker

/-! ## Lists -/

section
variable {α β : Type}

theorem flatMap_eq_nil {l : List α} {g : α → List β} (h : ∀ a ∈ l, g a = []) : l.flatMap g = [] :=
  List.flatMap_eq_nil_iff.2 h

theorem flatMap_eq_of_unique {l : List α} {g : α → List β} {a : α} (hnd : l.Nodup) (ha : a ∈ l)
    (hno : ∀ b ∈ l, b ≠ a → g b = []) : l.flatMap g = g a := by
  obtain ⟨before, after, rfl⟩ := List.append_of_mem ha
  have hnotin := (List.nodup_middle.1 hnd).notMem
  rw [List.mem_append, not_or] at hnotin
  have hbefore : before.flatMap g = [] := flatMap_eq_nil fun b hb =>
    hno b (List.mem_append_left _ hb) fun heq => hnotin.1 (heq ▸ hb)
  have hafter : after.flatMap g = [] := flatMap_eq_nil fun b hb =>
    hno b (List.mem_append_right _ (List.mem_cons_of_mem a hb)) fun heq => hnotin.2 (heq ▸ hb)
  rw [List.flatMap_append, List.flatMap_cons, hbefore, hafter, List.nil_append, List.append_nil]

theorem flatMap_filter_of_nil {l : List α} {g : α → List β} {p : α → Bool}
    (h : ∀ a ∈ l, p a = false → g a = []) : (l.filter p).flatMap g = l.flatMap g := by
  induction l with
  | nil => rfl
  | cons a l ih =>
    obtain ⟨ha, h⟩ := List.forall_mem_cons.1 h
    by_cases hp : p a = true
    · rw [List.filter_cons_of_pos hp, List.flatMap_cons, List.flatMap_cons, ih h]
    · rw [List.filter_cons_of_neg hp, List.flatMap_cons, ih h, ha (by simpa using hp),
        List.nil_append]

end

/-! ## Children -/

namespace Node

section
variable {node : Node} {c : Edge × SlotKey}

theorem mem_words : c ∈ node.words ↔ c ∈ node.children ∧ c.1.isWord = true :=
  List.mem_filter

theorem mem_arguments : c ∈ node.arguments ↔ c ∈ node.children ∧ c.1.isWord = false := by
  simp [arguments]

theorem perm_children (node : Node) : (node.words ++ node.arguments).Perm node.children :=
  List.filter_append_perm _ _

theorem flatMap_reverse_children {β : Type} {g : Edge × SlotKey → List β}
    (hdistinct : node.children.Distinct) (hc : c ∈ node.children)
    (hno : ∀ c' ∈ node.children, c' ≠ c → g c' = []) :
    (node.words ++ node.arguments).reverse.flatMap g = g c := by
  have hperm := (List.reverse_perm _).trans node.perm_children
  exact flatMap_eq_of_unique (hperm.nodup_iff.2 hdistinct.nodup) (hperm.mem_iff.2 hc)
    fun c' hc' => hno c' (hperm.mem_iff.1 hc')

theorem flatMap_reverse_children_eq_nil {β : Type} {g : Edge × SlotKey → List β}
    (h : ∀ c ∈ node.children, g c = []) :
    (node.words ++ node.arguments).reverse.flatMap g = [] := by
  have hperm := (List.reverse_perm _).trans node.perm_children
  exact flatMap_eq_nil fun c hc => h c (hperm.mem_iff.1 hc)

/-- What a walk does at the children comes to what it does at one of them, if the others give
nothing. -/
theorem flatMap_children {β : Type} {a b : Edge × SlotKey → List β}
    (hdistinct : node.children.Distinct) (hc : c ∈ node.children)
    (hno : ∀ c' ∈ node.children, c' ≠ c → a c' = [] ∧ b c' = []) :
    node.words.flatMap a ++ node.words.flatMap b ++ node.arguments.flatMap (fun c => a c ++ b c) =
      a c ++ b c := by
  have hnd := hdistinct.nodup
  cases hword : c.1.isWord with
  | true =>
    have hmem := mem_words.2 ⟨hc, hword⟩
    have harguments : node.arguments.flatMap (fun c => a c ++ b c) = [] := by
      refine flatMap_eq_nil fun c' hc' => ?_
      obtain ⟨hc', hargument⟩ := mem_arguments.1 hc'
      have hne : c' ≠ c := by
        rintro rfl
        rw [hword] at hargument
        cases hargument
      rw [(hno c' hc' hne).1, (hno c' hc' hne).2, List.append_nil]
    have hwords : node.words.Nodup := hnd.filter _
    rw [harguments, List.append_nil,
      flatMap_eq_of_unique hwords hmem fun c' hc' hne => (hno c' (mem_words.1 hc').1 hne).1,
      flatMap_eq_of_unique hwords hmem fun c' hc' hne => (hno c' (mem_words.1 hc').1 hne).2]
  | false =>
    have hmem := mem_arguments.2 ⟨hc, hword⟩
    have hwords {g : Edge × SlotKey → List β}
        (hg : ∀ c' ∈ node.children, c' ≠ c → g c' = []) : node.words.flatMap g = [] := by
      refine flatMap_eq_nil fun c' hc' => ?_
      obtain ⟨hc', hword'⟩ := mem_words.1 hc'
      refine hg c' hc' ?_
      rintro rfl
      rw [hword] at hword'
      cases hword'
    rw [hwords fun c' hc' hne => (hno c' hc' hne).1, hwords fun c' hc' hne => (hno c' hc' hne).2]
    refine flatMap_eq_of_unique (hnd.filter _) hmem fun c' hc' hne => ?_
    have hchild := (mem_arguments.1 hc').1
    rw [(hno c' hchild hne).1, (hno c' hchild hne).2, List.append_nil]

theorem flatMap_children_eq_nil {β : Type} {a b : Edge × SlotKey → List β}
    (h : ∀ c ∈ node.children, a c = [] ∧ b c = []) :
    node.words.flatMap a ++ node.words.flatMap b ++ node.arguments.flatMap (fun c => a c ++ b c) =
      [] := by
  have harguments : node.arguments.flatMap (fun c => a c ++ b c) = [] := by
    refine flatMap_eq_nil fun c hc => ?_
    obtain ⟨ha, hb⟩ := h c (mem_arguments.1 hc).1
    rw [ha, hb, List.append_nil]
  rw [flatMap_eq_nil fun c hc => (h c (mem_words.1 hc).1).1,
    flatMap_eq_nil fun c hc => (h c (mem_words.1 hc).1).2, harguments]
  rfl

end

end Node

/-! ## Keys below a node -/

namespace Forest

/-- The key stands at the node, once, and at no other. -/
def StandsAt (f : Forest) (k home : SlotKey) : Prop :=
  ∀ x, (f.listed x).filter (· = k) = if x = home then [k] else []

/-- No path leads from the node to the other. -/
def Apart (f : Forest) (id home : SlotKey) : Prop :=
  ∀ path, f.follow id path ≠ some home

section
variable {f : Forest} {id home c : SlotKey} {node : Node} {edge : Edge} {path : List Edge}
  {k : SlotKey} {n : Nat}

theorem WellFormed.follow_child (h : f.WellFormed) (hid : f.node? id = some node)
    (hc : (edge, c) ∈ node.children) (path : List Edge) :
    f.follow id (edge :: path) = f.follow c path := by
  have hchild := (child?_of_node? hid).trans ((h.siblings hid).find?_eq_some.2 hc)
  rw [follow, hchild, Option.bind_some]

theorem WellFormed.exists_node?_child (h : f.WellFormed) (hid : f.node? id = some node)
    (hc : (edge, c) ∈ node.children) : ∃ n, f.node? c = some n :=
  h.exists_node?_of_follow hid (h.follow_child hid hc [])

theorem exists_child_of_follow_cons (hid : f.node? id = some node)
    (hpath : f.follow id (edge :: path) = some home) :
    ∃ c, (edge, c) ∈ node.children ∧ f.follow c path = some home := by
  obtain ⟨c, hc, hpath⟩ := follow_cons_eq_some.1 hpath
  exact ⟨c, Keyed.mem_of_find? ((child?_of_node? hid).symm.trans hc), hpath⟩

theorem WellFormed.apart_child (h : f.WellFormed) (hid : f.node? id = some node)
    (hc : (edge, c) ∈ node.children) : f.Apart c id := by
  intro path hpath
  rw [← h.follow_child hid hc] at hpath
  cases h.eq_nil_of_follow hid hpath

/-- What is below a node is apart from the siblings of the node. -/
theorem WellFormed.apart_sibling (h : f.WellFormed) (hid : f.node? id = some node)
    (hc : (edge, c) ∈ node.children) (hpath : f.follow c path = some home)
    {c' : Edge × SlotKey} (hc' : c' ∈ node.children) (hne : c' ≠ (edge, c)) :
    f.Apart c'.2 home := by
  intro path' hpath'
  rw [← h.follow_child hid hc] at hpath
  rw [← h.follow_child hid hc'] at hpath'
  have hedge := (List.cons.inj (h.follow_inj_from hid hpath' hpath)).1
  have hchild := (h.siblings hid).find?_eq_some.2 hc
  rw [← hedge, (h.siblings hid).find?_eq_some.2 hc'] at hchild
  exact hne (Prod.ext hedge (Option.some.inj hchild))

theorem Apart.child (h : f.WellFormed) (hapart : f.Apart id home) (hid : f.node? id = some node)
    (hc : (edge, c) ∈ node.children) : f.Apart c home := by
  intro path hpath
  exact hapart (edge :: path) (by rw [h.follow_child hid hc, hpath])

theorem filter_definitions (hk : f.StandsAt k home) (hid : f.node? id = some node) :
    node.definitions.filter (· = k) = if id = home then [k] else [] := by
  rw [← hk id, listed_of_node? hid]

theorem filter_keysUnder_of_apart (h : f.WellFormed) (hk : f.StandsAt k home)
    (hapart : f.Apart id home) : (f.keysUnder n id).filter (· = k) = [] := by
  induction n generalizing id with
  | zero => rfl
  | succ n ih =>
    unfold keysUnder
    cases hid : f.node? id with
    | none => rfl
    | some node =>
      have hne : id ≠ home := fun heq => hapart [] (congrArg some heq)
      dsimp only
      rw [List.filter_append, filter_definitions hk hid, if_neg hne, List.nil_append,
        List.filter_flatMap]
      exact Node.flatMap_reverse_children_eq_nil fun c hc => ih (hapart.child h hid hc)

/-- A key that stands below a node is among the keys there once. -/
theorem filter_keysUnder (h : f.WellFormed) (hk : f.StandsAt k home)
    (hid : f.node? id = some node) (hpath : f.follow id path = some home)
    (hn : path.length < n) : (f.keysUnder n id).filter (· = k) = [k] := by
  induction n generalizing id node path with
  | zero => exact absurd hn (Nat.not_lt_zero _)
  | succ n ih =>
    unfold keysUnder
    rw [hid]
    dsimp only
    rw [List.filter_append, filter_definitions hk hid, List.filter_flatMap]
    cases path with
    | nil =>
      obtain rfl : id = home := Option.some.inj hpath
      rw [if_pos rfl, Node.flatMap_reverse_children_eq_nil fun c hc =>
        filter_keysUnder_of_apart h hk (h.apart_child hid hc)]
      rfl
    | cons edge path =>
      obtain ⟨c, hc, hbelow⟩ := exists_child_of_follow_cons hid hpath
      have hne : id ≠ home := by
        rintro rfl
        cases h.eq_nil_of_follow hid hpath
      obtain ⟨next, hnext⟩ := h.exists_node?_child hid hc
      rw [if_neg hne, List.nil_append, Node.flatMap_reverse_children (h.siblings hid) hc
        fun c' hc' hne => filter_keysUnder_of_apart h hk (h.apart_sibling hid hc hbelow hc' hne)]
      exact ih hnext hbelow (Nat.lt_of_succ_lt_succ hn)

theorem filter_keysFrom (h : f.WellFormed) (hk : f.StandsAt k home)
    (hid : f.node? id = some node) (hpath : f.follow id path = some home) :
    (f.keysFrom id).filter (· = k) = [k] := by
  obtain ⟨phase, before, hbefore⟩ := h.reached hid
  have hwhole : f.follow (f.root phase) (before ++ path) = some home := by
    rw [follow_append, hbefore, Option.bind_some, hpath]
  have hlength := h.length_lt hwhole
  rw [List.length_append] at hlength
  exact filter_keysUnder h hk hid hpath (by omega)

theorem filter_keysFrom_of_apart (h : f.WellFormed) (hk : f.StandsAt k home)
    (hapart : f.Apart id home) : (f.keysFrom id).filter (· = k) = [] :=
  filter_keysUnder_of_apart h hk hapart

end

end Forest

namespace Query

/-! ## Down one path -/

/-- What is found of a definition at the end of the path, in the order of the walk: the statement
ends there, or earlier on the path, or breaks off in an edge of it. -/
def along (q : Query) : List Edge → Reach → List Finding
  | [], r => if q.tokens.size ≤ r.position then [r.finding true] else []
  | edge :: path, r =>
    if q.tokens.size ≤ r.position then (if q.allowPartial then [r.finding false] else [])
    else
      (q.stops edge r.position).flatMap (fun stop => q.along path (r.take edge stop)) ++
        if q.allowPartial && edge.breaksOff q.tokens r.position then [r.broken q.tokens edge]
        else []

section
variable {q : Query} {f : Forest} {n : Nat} {id home k child : SlotKey} {node : Node} {r : Reach}
  {path : List Edge}

/-- Where it is of no use to stop, nothing is found. -/
theorem sightings_of_not_canStopAt (h : q.canStopAt f child r.position = false) :
    q.sightings f n child r = [] := by
  cases n with
  | zero => rfl
  | succ n =>
    unfold sightings
    unfold canStopAt at h
    cases hchild : f.node? child with
    | none => rfl
    | some next =>
      simp only [hchild, Bool.or_eq_false_iff, decide_eq_false_iff_not, Bool.not_eq_false',
        List.isEmpty_iff] at h
      obtain ⟨⟨⟨hsize, harguments⟩, hlast⟩, hwords⟩ := h
      dsimp only
      rw [if_neg hsize]
      refine flatMap_eq_nil fun move hmove => ?_
      -- no word leads on from here, and the statement breaks off in none
      simp only [moves, harguments, List.flatMap_nil, List.append_nil, List.mem_append,
        List.mem_flatMap] at hmove
      rcases hmove with ⟨c, hc, hmove⟩ | ⟨c, hc, hmove⟩
      · have hword := (Node.mem_words.1 hc).2
        have hstop := List.any_eq_false.1 hwords c hc
        rw [Bool.not_eq_true, Option.isSome_eq_false_iff, Option.isNone_iff_eq_none] at hstop
        obtain ⟨edge, c⟩ := c
        cases edge with
        | argument hint quote => cases hword
        | word text => simp [enters, stops, Edge.isFree, hstop] at hmove
      · have hword := (Node.mem_words.1 hc).2
        obtain ⟨edge, c⟩ := c
        cases edge with
        | argument hint quote => cases hword
        | word text =>
          have hno : (q.allowPartial && Edge.breaksOff q.tokens r.position (.word text)) = false := by
            rw [Edge.breaksOff, ← Bool.and_assoc, hlast, Bool.false_and]
          simp [breakOffs, hno] at hmove

def through (q : Query) (f : Forest) (n : Nat) (r : Reach) (c : Edge × SlotKey) :
    List (SlotKey × Finding) :=
  (q.stops c.1 r.position).flatMap fun stop => q.sightings f n c.2 (r.take c.1 stop)

def behind (q : Query) (f : Forest) (r : Reach) (c : Edge × SlotKey) : List (SlotKey × Finding) :=
  if q.allowPartial && c.1.breaksOff q.tokens r.position then
    (f.keysFrom c.2).map (·, r.broken q.tokens c.1)
  else []

theorem sightings_of_le (hid : f.node? id = some node) (hi : q.tokens.size ≤ r.position) :
    q.sightings f (n + 1) id r = q.ended f node r := by
  rw [sightings, hid]
  exact if_pos hi

theorem sightings_succ (hid : f.node? id = some node) (hi : ¬ q.tokens.size ≤ r.position) :
    q.sightings f (n + 1) id r =
      node.words.flatMap (q.through f n r) ++ node.words.flatMap (q.behind f r) ++
        node.arguments.flatMap fun c => q.through f n r c ++ q.behind f r c := by
  have henters (c : Edge × SlotKey) : (q.enters f r.position c).flatMap
      (q.afterMove f (q.sightings f n) r) = q.through f n r c := by
    rw [enters, List.flatMap_map, through]
    split
    · exact flatMap_filter_of_nil fun stop _ hstop => sightings_of_not_canStopAt hstop
    · rfl
  have hbreakOffs (c : Edge × SlotKey) : (q.breakOffs r.position c).flatMap
      (q.afterMove f (q.sightings f n) r) = q.behind f r c := by
    unfold breakOffs behind
    split
    · rw [List.flatMap_singleton]
      rfl
    · rfl
  rw [sightings, hid]
  dsimp only
  rw [if_neg hi, moves]
  simp only [List.flatMap_append, List.flatMap_assoc, henters, hbreakOffs]

theorem filter_behind (h : f.WellFormed) (hk : f.StandsAt k home) {c : Edge × SlotKey}
    (hnode : f.node? c.2 = some node) (hpath : f.follow c.2 path = some home) :
    (q.behind f r c).filter (·.1 = k) =
      (if q.allowPartial && c.1.breaksOff q.tokens r.position then [r.broken q.tokens c.1]
        else []).map (k, ·) := by
  unfold behind
  split
  · rw [List.filter_map]
    exact congrArg (List.map _) (Forest.filter_keysFrom h hk hnode hpath)
  · rfl

theorem filter_behind_of_apart (h : f.WellFormed) (hk : f.StandsAt k home) {c : Edge × SlotKey}
    (hapart : f.Apart c.2 home) : (q.behind f r c).filter (·.1 = k) = [] := by
  unfold behind
  split
  · rw [List.filter_map]
    exact congrArg (List.map _) (Forest.filter_keysFrom_of_apart h hk hapart)
  · rfl

theorem filter_ended (hk : f.StandsAt k home) (hid : f.node? id = some node) :
    (q.ended f node r).filter (·.1 = k) =
      (if id = home then [(k, r.finding true)] else []) ++
        if q.allowPartial then
          ((node.words ++ node.arguments).reverse.flatMap fun c =>
            (f.keysFrom c.2).filter (· = k)).map (·, r.finding false)
        else [] := by
  have hhere : (node.definitions.map (·, r.finding true)).filter (·.1 = k) =
      if id = home then [(k, r.finding true)] else [] := by
    rw [List.filter_map]
    refine (congrArg (List.map _) (Forest.filter_definitions hk hid)).trans ?_
    split <;> rfl
  rw [ended, List.filter_append, hhere]
  congr 1
  split
  · rw [List.filter_map, ← List.filter_flatMap]
    rfl
  · rfl

theorem filter_ended_of_apart (h : f.WellFormed) (hk : f.StandsAt k home)
    (hid : f.node? id = some node) (hapart : f.Apart id home) :
    (q.ended f node r).filter (·.1 = k) = [] := by
  have hne : id ≠ home := fun heq => hapart [] (congrArg some heq)
  rw [filter_ended hk hid, if_neg hne, List.nil_append,
    Node.flatMap_reverse_children_eq_nil fun c hc =>
      Forest.filter_keysFrom_of_apart h hk (hapart.child h hid hc)]
  split <;> rfl

/-- Where the statement ends, a key is found exactly if it stands there, and partially if it stands
below. -/
theorem filter_ended_of_follow (h : f.WellFormed) (hk : f.StandsAt k home)
    (hid : f.node? id = some node) (hpath : f.follow id path = some home)
    (hi : q.tokens.size ≤ r.position) :
    (q.ended f node r).filter (·.1 = k) = (q.along path r).map (k, ·) := by
  rw [filter_ended hk hid]
  cases path with
  | nil =>
    obtain rfl : id = home := Option.some.inj hpath
    rw [if_pos rfl, along, if_pos hi, Node.flatMap_reverse_children_eq_nil fun c hc =>
      Forest.filter_keysFrom_of_apart h hk (h.apart_child hid hc)]
    split <;> rfl
  | cons edge path =>
    obtain ⟨c, hc, hbelow⟩ := Forest.exists_child_of_follow_cons hid hpath
    obtain ⟨next, hnext⟩ := h.exists_node?_child hid hc
    have hne : id ≠ home := by
      rintro rfl
      cases h.eq_nil_of_follow hid hpath
    rw [if_neg hne, List.nil_append, along, if_pos hi,
      Node.flatMap_reverse_children (h.siblings hid) hc fun c' hc' hne =>
        Forest.filter_keysFrom_of_apart h hk (h.apart_sibling hid hc hbelow hc' hne),
      Forest.filter_keysFrom h hk hnext hbelow]
    split <;> rfl

/-- A walk does not come across a key that is not below where it begins. -/
theorem filter_sightings_of_apart (h : f.WellFormed) (hk : f.StandsAt k home)
    (hapart : f.Apart id home) : (q.sightings f n id r).filter (·.1 = k) = [] := by
  induction n generalizing id r with
  | zero => rfl
  | succ n ih =>
    cases hid : f.node? id with
    | none =>
      unfold sightings
      rw [hid]
      rfl
    | some node =>
      by_cases hi : q.tokens.size ≤ r.position
      · rw [sightings_of_le hid hi]
        exact filter_ended_of_apart h hk hid hapart
      · rw [sightings_succ hid hi]
        simp only [List.filter_append, List.filter_flatMap]
        refine Node.flatMap_children_eq_nil fun c hc => ?_
        have hchild : f.Apart c.2 home := hapart.child h hid hc
        refine ⟨?_, filter_behind_of_apart h hk hchild⟩
        rw [through, List.filter_flatMap]
        exact flatMap_eq_nil fun stop _ => ih hchild

theorem filter_through_of_apart (h : f.WellFormed) (hk : f.StandsAt k home) {c : Edge × SlotKey}
    (hapart : f.Apart c.2 home) : (q.through f n r c).filter (·.1 = k) = [] := by
  rw [through, List.filter_flatMap]
  exact flatMap_eq_nil fun stop _ => filter_sightings_of_apart h hk hapart

/-- What a walk comes across of a key is what there is along the path to it. -/
theorem filter_sightings (h : f.WellFormed) (hk : f.StandsAt k home)
    (hid : f.node? id = some node) (hpath : f.follow id path = some home)
    (hn : q.Enough n r.position) :
    (q.sightings f n id r).filter (·.1 = k) = (q.along path r).map (k, ·) := by
  induction n generalizing id node path r with
  | zero => exact absurd hn.1 (Nat.lt_irrefl 0)
  | succ n ih =>
    by_cases hi : q.tokens.size ≤ r.position
    · rw [sightings_of_le hid hi]
      exact filter_ended_of_follow h hk hid hpath hi
    · rw [sightings_succ hid hi]
      simp only [List.filter_append, List.filter_flatMap]
      cases path with
      | nil =>
        -- all that is found by going on stands elsewhere
        obtain rfl : id = home := Option.some.inj hpath
        rw [along, if_neg hi]
        refine Node.flatMap_children_eq_nil fun c hc => ?_
        have hapart := h.apart_child hid hc
        exact ⟨filter_through_of_apart h hk hapart, filter_behind_of_apart h hk hapart⟩
      | cons edge path =>
        obtain ⟨c, hc, hbelow⟩ := Forest.exists_child_of_follow_cons hid hpath
        obtain ⟨next, hnext⟩ := h.exists_node?_child hid hc
        rw [Node.flatMap_children (h.siblings hid) hc fun c' hc' hne => ?_]
        · rw [along, if_neg hi, List.map_append, filter_behind h hk hnext hbelow, through,
            List.filter_flatMap, List.map_flatMap]
          congr 1
          refine List.flatMap_congr fun stop hstop => ?_
          exact ih hnext hbelow (hn.step hi (lt_of_mem_stops hstop))
        · have hapart := h.apart_sibling hid hc hbelow hc' hne
          exact ⟨filter_through_of_apart h hk hapart, filter_behind_of_apart h hk hapart⟩

/-- What a walk finds of a key is the best that there is along its path. -/
theorem find?_run_of_follow (h : f.WellFormed) (hk : f.StandsAt k home)
    (hid : f.node? id = some node) (hpath : f.follow id path = some home) :
    (q.run f id).find? k = best (q.along path .start) := by
  have henough : q.Enough (q.tokens.size + 1) Reach.start.position :=
    ⟨Nat.succ_pos _, by simp [Reach.start]⟩
  rw [find?_run, filter_sightings h hk hid hpath henough, List.map_map]
  exact congrArg best (List.map_id _)

theorem find?_run_of_apart (h : f.WellFormed) (hk : f.StandsAt k home)
    (hapart : f.Apart id home) : (q.run f id).find? k = none := by
  rw [find?_run, filter_sightings_of_apart h hk hapart]
  rfl

end

end Query

/-! ## The results of a search -/

namespace MatchingTree

section
variable {t : MatchingTree} {phase phase' : Phase} {type : StepType} {statement : Statement}
  {allowPartial : Bool} {q : Query} {k : SlotKey} {d : Definition} {p : Pattern} {m : Match}
  {found : Finding}

theorem match?_eq_some : t.match? k found = some m ↔ ∃ e p, t.definitions.get? k = some e ∧
    e.definition.pattern = .ok p ∧ m = .ofFinding k e.definition p e.specificity found := by
  unfold match?
  cases t.definitions.get? k with
  | none => simp
  | some e =>
    dsimp only
    cases hp : e.definition.pattern with
    | error error => simp [hp]
    | ok p => simp [hp, eq_comm]

theorem exists_of_mem_search (hm : m ∈ t.search type statement allowPartial) :
    ∃ phase k found, type = .phase phase ∧
      (k, found) ∈ Query.run ⟨statement.tokens, allowPartial⟩ t.forest (t.forest.root phase) ∧
      t.match? k found = some m := by
  cases type with
  | conjunction => cases hm
  | phase phase =>
    simp only [search, StepType.phase?, List.mem_mergeSort, List.mem_filterMap] at hm
    obtain ⟨⟨k, found⟩, hmem, hmatch⟩ := hm
    exact ⟨phase, k, found, rfl, hmem, hmatch⟩

theorem nodup_search (t : MatchingTree) (type : StepType) (statement : Statement)
    (allowPartial : Bool) : ((t.search type statement allowPartial).map (·.key)).Nodup := by
  cases type with
  | conjunction => exact List.nodup_nil
  | phase phase =>
    have hkeys (found : Keyed SlotKey Finding) :
        ((found.filterMap fun s => t.match? s.1 s.2).map (·.key)).Sublist
          (found.map (·.1)) := by
      induction found with
      | nil => exact .slnil
      | cons s found ih =>
        cases hm : t.match? s.1 s.2 with
        | none => simpa [hm] using ih.cons s.1
        | some m =>
          obtain ⟨e, p, -, -, rfl⟩ := match?_eq_some.1 hm
          simpa [hm, Match.ofFinding] using ih
    simp only [search, StepType.phase?]
    rw [((List.mergeSort_perm _ _).map _).nodup_iff]
    exact (Query.distinct_run _ _ _).sublist (hkeys _)

theorem WellFormed.standsAt (h : t.WellFormed) {e : Entry} (he : t.definitions.get? k = some e) :
    t.forest.StandsAt k e.node := by
  intro x
  have hmem (k' : SlotKey) : k' ∈ (t.forest.listed x).filter (· = k) ↔ k' = k ∧ x = e.node := by
    rw [List.mem_filter, decide_eq_true_eq, h.mem_listed]
    constructor
    · rintro ⟨⟨e', he', rfl⟩, rfl⟩
      rw [he] at he'
      cases he'
      exact ⟨rfl, rfl⟩
    · rintro ⟨rfl, rfl⟩
      exact ⟨⟨e, he, rfl⟩, rfl⟩
  have hnodup := (h.nodup_listed x).filter (· = k)
  split
  · next hx =>
    refine ((List.perm_ext_iff_of_nodup hnodup (List.nodup_singleton k)).2 fun k' => ?_).eq_singleton
    rw [hmem, List.mem_singleton, and_iff_left hx]
  · next hx =>
    refine List.eq_nil_iff_forall_not_mem.2 fun k' hk' => ?_
    exact hx ((hmem k').1 hk').2

/-- A walk from a root finds of a definition of the phase what there is along its path, and nothing
of the others. -/
theorem WellFormed.find?_run (h : t.WellFormed) (hd : t.get? k = some d)
    (hplace : d.place? = some (phase', p)) :
    (q.run t.forest (t.forest.root phase)).find? k =
      if phase' = phase then best (q.along p.edges .start) else none := by
  obtain ⟨e, he, rfl⟩ := Option.map_eq_some_iff.1 hd
  obtain ⟨phase'', p', hplace', -, hfollow⟩ := h.exists_place? he
  rw [hplace] at hplace'
  cases hplace'
  split
  · next heq =>
    subst heq
    obtain ⟨n, hn, -⟩ := h.forest.root_live phase'
    exact Query.find?_run_of_follow h.forest (h.standsAt he) hn hfollow
  · next hne =>
    refine Query.find?_run_of_apart h.forest (h.standsAt he) fun path hpath => ?_
    exact hne (h.forest.follow_inj hfollow hpath).1

/-- The results of a search are what there is along the paths of the definitions of the type. -/
theorem WellFormed.mem_search (h : t.WellFormed) :
    m ∈ t.search (.phase phase) statement allowPartial ↔
      ∃ k d p found, t.get? k = some d ∧ d.place? = some (phase, p) ∧
        best (Query.along ⟨statement.tokens, allowPartial⟩ p.edges .start) = some found ∧
        m = .ofFinding k d p (.ofPattern p) found := by
  have hdistinct := Query.distinct_run ⟨statement.tokens, allowPartial⟩ t.forest
    (t.forest.root phase)
  constructor
  · intro hm
    obtain ⟨_, k, found, htype, hmem, hmatch⟩ := exists_of_mem_search hm
    cases htype
    obtain ⟨e, p, he, hp, rfl⟩ := match?_eq_some.1 hmatch
    obtain ⟨phase', p', hplace, hspecificity, -⟩ := h.exists_place? he
    have hp' := (Definition.place?_eq_some.1 hplace).2
    rw [hp] at hp'
    cases hp'
    have hd : t.get? k = some e.definition := by rw [get?, he]; rfl
    have hfind := hdistinct.find?_eq_some.2 hmem
    rw [h.find?_run hd hplace, Option.ite_none_right_eq_some] at hfind
    obtain ⟨rfl, hbest⟩ := hfind
    exact ⟨k, e.definition, p, found, hd, hplace, hbest, by rw [hspecificity]⟩
  · rintro ⟨k, d, p, found, hd, hplace, hbest, rfl⟩
    have hfind := (h.find?_run hd hplace).trans ((if_pos rfl).trans hbest)
    obtain ⟨e, he, rfl⟩ := Option.map_eq_some_iff.1 hd
    obtain ⟨phase', p', hplace', hspecificity, -⟩ := h.exists_place? he
    rw [hplace] at hplace'
    cases hplace'
    simp only [search, StepType.phase?, List.mem_mergeSort, List.mem_filterMap]
    refine ⟨(k, found), hdistinct.find?_eq_some.1 hfind, match?_eq_some.2 ⟨e, p, he, ?_, ?_⟩⟩
    · exact (Definition.place?_eq_some.1 hplace).2
    · rw [hspecificity]

end

end MatchingTree

end StepLinker
