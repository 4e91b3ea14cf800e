import StepLinker.Proofs.Keyed
import StepLinker.Proofs.Tree.Reading
import StepLinker.Tree.Walk

/-!
# Walks without a memory

A walk does not enter a node twice with the same number of tokens read. That loses nothing: what it
would find there again is known already, except perhaps for other spans, and of two findings that are
equally good the first is kept. So a walk records what it would have come across without a memory, in
order (`run_eq`), and what it keeps of a key is the first exact finding, or the first of all if none
is exact (`find?_run`). None of this asks anything of the forest.
-/

namespace StepLinker

/-! ## Records -/

/-- A finding of the key that is as good is on record. -/
def Known (found : Keyed SlotKey Finding) (k : SlotKey) (exact : Bool) : Prop :=
  (found.find? k).any (fun old => old.exact || !exact) = true

section
variable {found : Keyed SlotKey Finding} {k : SlotKey} {exact : Bool}

theorem record_of_known {s : SlotKey × Finding} (h : Known found s.1 s.2.exact) :
    record found s = found := by
  unfold Known at h
  rw [record, if_pos h]

theorem known_record (found : Keyed SlotKey Finding) (s : SlotKey × Finding) :
    Known (record found s) s.1 s.2.exact := by
  by_cases h : Known found s.1 s.2.exact
  · rwa [record_of_known h]
  · unfold Known at h
    rw [record, if_neg h, Known, Keyed.find?_insert, if_pos rfl]
    simp

theorem Known.record (h : Known found k exact) (s : SlotKey × Finding) :
    Known (record found s) k exact := by
  by_cases hs : Known found s.1 s.2.exact
  · rwa [record_of_known hs]
  · unfold Known at h hs
    rw [StepLinker.record, if_neg hs, Known, Keyed.find?_insert]
    by_cases hk : s.1 = k
    · -- what is replaced was partial, and an exact finding is as good as any
      subst hk
      obtain ⟨old, hold, -⟩ := (Option.any_eq_true _ _).1 h
      rw [hold] at hs
      simp only [Option.any_some, Bool.or_eq_true, Bool.not_eq_true', not_or] at hs
      simp [Bool.eq_true_of_not_eq_false hs.2]
    · rwa [if_neg hk]

theorem Known.records (h : Known found k exact) (sightings : List (SlotKey × Finding)) :
    Known (sightings.foldl StepLinker.record found) k exact := by
  induction sightings generalizing found with
  | nil => exact h
  | cons s sightings ih => exact ih (h.record s)

theorem known_records {sightings : List (SlotKey × Finding)} {s : SlotKey × Finding}
    (hs : s ∈ sightings) (found : Keyed SlotKey Finding) :
    Known (sightings.foldl record found) s.1 s.2.exact := by
  induction sightings generalizing found with
  | nil => cases hs
  | cons first sightings ih =>
    rcases List.mem_cons.1 hs with rfl | hs
    · exact (known_record found s).records sightings
    · exact ih hs _

theorem records_of_known {sightings : List (SlotKey × Finding)}
    (h : ∀ s ∈ sightings, Known found s.1 s.2.exact) : sightings.foldl record found = found := by
  induction sightings with
  | nil => rfl
  | cons s sightings ih =>
    obtain ⟨hs, h⟩ := List.forall_mem_cons.1 h
    rw [List.foldl_cons, record_of_known hs, ih h]

end

def best (findings : List Finding) : Option Finding :=
  (findings.find? (·.exact)).or findings.head?

/-- What is kept of a key goes by the sightings of that key alone. -/
theorem find?_records (sightings : List (SlotKey × Finding)) (k : SlotKey) :
    (sightings.foldl record []).find? k =
      best ((sightings.filter (·.1 = k)).map (·.2)) := by
  induction sightings using List.reverseRecOn with
  | nil => rfl
  | append_singleton sightings s ih =>
    rw [List.foldl_append, List.foldl_cons, List.foldl_nil, List.filter_append, List.map_append]
    generalize sightings.foldl record [] = found at ih
    generalize ((sightings.filter (·.1 = k)).map (·.2)) = findings at ih
    by_cases hk : s.1 = k
    · subst hk
      have hbest : best (findings ++ [s.2]) =
          if (best findings).any (fun old => old.exact || !s.2.exact) then best findings
          else some s.2 := by
        unfold best
        rw [List.find?_append]
        cases hfind : findings.find? (·.exact) with
        | some old =>
          have hexact : old.exact = true := by simpa using List.find?_some hfind
          simp [hexact]
        | none =>
          cases findings with
          | nil => cases hs : s.2.exact <;> simp [hs]
          | cons first findings =>
            have hfirst : first.exact = false := by simpa using List.find?_eq_none.1 hfind first
            cases hs : s.2.exact <;> simp [hs, hfirst]
      rw [List.filter_cons_of_pos (by simp), List.filter_nil, List.map_singleton, hbest, ← ih,
        record]
      split
      · rfl
      · rw [Keyed.find?_insert, if_pos rfl]
    · rw [List.filter_cons_of_neg (by simpa using hk), List.filter_nil, List.map_nil,
        List.append_nil, ← ih, record]
      split
      · rfl
      · rw [Keyed.find?_insert, if_neg hk]

theorem distinct_records (sightings : List (SlotKey × Finding)) :
    Keyed.Distinct (sightings.foldl record []) := by
  induction sightings using List.reverseRecOn with
  | nil => exact List.nodup_nil
  | append_singleton sightings s ih =>
    rw [List.foldl_append, List.foldl_cons, List.foldl_nil, record]
    split
    · exact ih
    · exact ih.insert _ _

/-! ## Moves -/

theorem Edge.exists_part (edge : Edge) : ∃ part : Part, part.edge = edge := by
  cases edge with
  | word text => exact ⟨.word text, rfl⟩
  | argument hint quote => exact ⟨.argument ⟨"", hint, quote⟩, rfl⟩

namespace Query

section
variable {q : Query} {f : Forest} {node : Node} {i stop : Nat} {edge : Edge} {child : SlotKey}

theorem mem_stops {part : Part} :
    stop ∈ q.stops part.edge i ↔ part.Spans q.tokens.toList i stop := by
  unfold stops
  split
  · next hfree =>
    obtain ⟨p, rfl, quote, notNumeric⟩ := isFree_edge.1 hfree
    rw [spans_of_free quote notNumeric, List.mem_range'_1, Array.length_toList]
    omega
  · next hfree => rw [Option.mem_toList, stop?_eq_some (by simpa using hfree)]

/-- Only an argument has more than one stop, and a walk takes the nearest first. -/
theorem pairwise_stops (q : Query) (edge : Edge) (i : Nat) :
    (q.stops edge i).Pairwise fun s s' => s < s' ∧ edge.isWord = false := by
  unfold stops
  split
  · next hfree =>
    have hword : edge.isWord = false := by
      cases edge with
      | word text => cases hfree
      | argument hint quote => rfl
    exact (List.pairwise_lt_range').imp fun hlt => ⟨hlt, hword⟩
  · cases edge.stop? q.tokens i <;> simp

theorem lt_of_mem_stops (h : stop ∈ q.stops edge i) : i < stop := by
  obtain ⟨part, rfl⟩ := edge.exists_part
  exact (mem_stops.1 h).lt.1

theorem mem_stops_of_enters {c : Edge × SlotKey} (h : .enter edge child stop ∈ q.enters f i c) :
    (edge, child) = c ∧ stop ∈ q.stops edge i := by
  obtain ⟨s, hs, he⟩ := List.mem_map.1 h
  cases he
  split at hs
  · exact ⟨rfl, List.mem_of_mem_filter hs⟩
  · exact ⟨rfl, hs⟩

theorem notMem_breakOffs {c : Edge × SlotKey} : .enter edge child stop ∉ q.breakOffs i c := by
  unfold breakOffs
  split <;> simp

theorem of_enter_mem_moves (h : .enter edge child stop ∈ q.moves f node i) :
    (edge, child) ∈ node.children ∧ stop ∈ q.stops edge i := by
  have hwords {c : Edge × SlotKey} (hc : c ∈ node.words) : c ∈ node.children :=
    List.mem_of_mem_filter hc
  have harguments {c : Edge × SlotKey} (hc : c ∈ node.arguments) : c ∈ node.children :=
    List.mem_of_mem_filter hc
  simp only [moves, List.mem_append, List.mem_flatMap] at h
  rcases h with (⟨c, hc, h⟩ | ⟨c, -, h⟩) | ⟨c, hc, h | h⟩
  · obtain ⟨rfl, hstop⟩ := mem_stops_of_enters h
    exact ⟨hwords hc, hstop⟩
  · exact absurd h notMem_breakOffs
  · obtain ⟨rfl, hstop⟩ := mem_stops_of_enters h
    exact ⟨harguments hc, hstop⟩
  · exact absurd h notMem_breakOffs

end

/-! ## What a walk would find -/

/-- What comes of a move, if `below` is what comes of entering a node. -/
def afterMove (q : Query) (f : Forest) (below : SlotKey → Reach → List (SlotKey × Finding))
    (r : Reach) : Move → List (SlotKey × Finding)
  | .enter edge child stop => below child (r.take edge stop)
  | .breakOff edge child => (f.keysFrom child).map (·, r.broken q.tokens edge)

/-- What a walk without a memory comes across from a node on, in order. -/
def sightings (q : Query) (f : Forest) : Nat → SlotKey → Reach → List (SlotKey × Finding)
  | 0, _, _ => []
  | n + 1, id, r =>
    match f.node? id with
    | none => []
    | some node =>
      if q.tokens.size ≤ r.position then q.ended f node r
      else (q.moves f node r.position).flatMap (q.afterMove f (q.sightings f n) r)

/-- The fuel is enough to read on from token `i` to the end. -/
def Enough (q : Query) (n i : Nat) : Prop :=
  0 < n ∧ q.tokens.size < i + n

theorem Enough.step {q : Query} {n i stop : Nat} (h : q.Enough (n + 1) i)
    (hi : ¬ q.tokens.size ≤ i) (hstop : i < stop) : q.Enough n stop := by
  unfold Enough at h ⊢
  omega

section
variable {q : Query} {f : Forest} {n n' : Nat} {id : SlotKey} {r r' : Reach}

/-- The keys that are come across, and which of them exactly, go by the position alone. -/
theorem map_exact_sightings (hn : q.Enough n r.position) (hn' : q.Enough n' r'.position)
    (hposition : r.position = r'.position) :
    (q.sightings f n id r).map (fun s => (s.1, s.2.exact)) =
      (q.sightings f n' id r').map fun s => (s.1, s.2.exact) := by
  induction n generalizing n' id r r' with
  | zero => exact absurd hn.1 (Nat.lt_irrefl 0)
  | succ n ih =>
    obtain ⟨n', rfl⟩ := Nat.exists_eq_succ_of_ne_zero (Nat.ne_of_gt hn'.1)
    unfold sightings
    cases f.node? id with
    | none => rfl
    | some node =>
      rw [← hposition] at hn' ⊢
      dsimp only
      split
      · simp only [ended, List.map_append, List.map_map]
        split <;> simp [Function.comp_def, Reach.finding]
      · next hi =>
        rw [List.map_flatMap, List.map_flatMap]
        refine List.flatMap_congr fun move hmove => ?_
        cases move with
        | enter edge child stop =>
          have hlt := lt_of_mem_stops (of_enter_mem_moves hmove).2
          exact ih (hn.step hi hlt) (hn'.step hi hlt) rfl
        | breakOff edge child =>
          simp [afterMove, List.map_map, Function.comp_def, Reach.broken]

/-- All that can be found from the node at token `i` is known. -/
def Settled (q : Query) (f : Forest) (found : Keyed SlotKey Finding) (id : SlotKey) (i : Nat) :
    Prop :=
  ∃ n r, r.position = i ∧ q.Enough n i ∧
    ∀ s ∈ q.sightings f n id r, Known found s.1 s.2.exact

theorem Settled.records {found : Keyed SlotKey Finding} {i : Nat} (h : q.Settled f found id i)
    (more : List (SlotKey × Finding)) : q.Settled f (more.foldl record found) id i := by
  obtain ⟨n, r, hr, hn, h⟩ := h
  exact ⟨n, r, hr, hn, fun s hs => (h s hs).records more⟩

theorem Settled.known {found : Keyed SlotKey Finding} (h : q.Settled f found id r.position)
    (hn : q.Enough n r.position) : ∀ s ∈ q.sightings f n id r, Known found s.1 s.2.exact := by
  obtain ⟨n', r', hr', hn', h⟩ := h
  intro s hs
  have hmem : (s.1, s.2.exact) ∈ (q.sightings f n id r).map fun s => (s.1, s.2.exact) :=
    List.mem_map.2 ⟨s, hs, rfl⟩
  rw [map_exact_sightings hn (hr'.symm ▸ hn') hr'.symm] at hmem
  obtain ⟨s', hs', he⟩ := List.mem_map.1 hmem
  obtain ⟨hkey, hexact⟩ := Prod.mk.inj he
  exact hkey ▸ hexact ▸ h s' hs'

end

/-! ## The walk -/

section
variable {q : Query} {f : Forest} {n : Nat} {id id' : SlotKey} {i i' : Nat} {r : Reach}
  {w w' : Walk}

theorem hasEntered_enter (h : (w.enter id i).hasEntered id' i' = true) :
    (id' = id ∧ i' = i) ∨ w.hasEntered id' i' = true := by
  unfold Walk.hasEntered Walk.enter at h
  rw [Array.getElem?_modify] at h
  split at h
  · next hi =>
    subst hi
    rw [Option.any_map] at h
    obtain ⟨ids, hids, hmem⟩ := (Option.any_eq_true _ _).1 h
    simp only [List.contains_cons, Bool.or_eq_true, beq_iff_eq] at hmem
    rcases hmem with rfl | hmem
    · exact .inl ⟨rfl, rfl⟩
    · exact .inr (by rw [Walk.hasEntered, hids]; exact hmem)
  · exact .inr h

/-- What a part of a walk does: it records what there is to be found, and where it has entered a
node, all is known in the end. -/
structure Explores (q : Query) (f : Forest) (sightings : List (SlotKey × Finding))
    (w w' : Walk) : Prop where
  found : w'.found = sightings.foldl record w.found
  settled : ∀ {id i}, w'.hasEntered id i = true →
    w.hasEntered id i = true ∨ q.Settled f w'.found id i

/-- The walk knows all that is to be found where it has been, if that was behind token `i`. -/
def Knows (q : Query) (f : Forest) (w : Walk) (i : Nat) : Prop :=
  ∀ {id i'}, i < i' → w.hasEntered id i' = true → q.Settled f w.found id i'

theorem Explores.nil (q : Query) (f : Forest) (w : Walk) : q.Explores f [] w w :=
  ⟨rfl, .inl⟩

theorem explores_recordAll (q : Query) (f : Forest) (w : Walk)
    (sightings : List (SlotKey × Finding)) : q.Explores f sightings w (w.recordAll sightings) :=
  ⟨rfl, .inl⟩

theorem Explores.knows {sightings : List (SlotKey × Finding)} (h : q.Explores f sightings w w')
    (hw : q.Knows f w i) : q.Knows f w' i := by
  intro id i' hi hentered
  rcases h.settled hentered with hbefore | hsettled
  · rw [h.found]
    exact (hw hi hbefore).records sightings
  · exact hsettled

theorem Explores.append {before after : List (SlotKey × Finding)} {w'' : Walk}
    (h : q.Explores f before w w') (h' : q.Explores f after w' w'') :
    q.Explores f (before ++ after) w w'' where
  found := by rw [h'.found, h.found, List.foldl_append]
  settled hentered := by
    rcases h'.settled hentered with hbefore | hsettled
    · rcases h.settled hbefore with hbefore | hsettled
      · exact .inl hbefore
      · refine .inr ?_
        rw [h'.found]
        exact hsettled.records after
    · exact .inr hsettled

/-- Move by move, a walk explores what its moves lead to. -/
theorem explores_foldl {step : Walk → Move → Walk} {sightings : Move → List (SlotKey × Finding)}
    {moves : List Move} (hstep : ∀ move ∈ moves, ∀ w, q.Knows f w i →
      q.Explores f (sightings move) w (step w move)) (hw : q.Knows f w i) :
    q.Explores f (moves.flatMap sightings) w (moves.foldl step w) := by
  induction moves generalizing w with
  | nil => exact .nil q f w
  | cons move moves ih =>
    obtain ⟨hmove, hmoves⟩ := List.forall_mem_cons.1 hstep
    have hfirst := hmove w hw
    exact hfirst.append (ih hmoves (hfirst.knows hw))

/-- A visit explores what there is to be found from its node on, if nothing is missing where the
walk has been with as many tokens read. -/
theorem explores_visit (hn : q.Enough n r.position)
    (hw : ∀ {id i}, r.position ≤ i → w.hasEntered id i = true → q.Settled f w.found id i) :
    q.Explores f (q.sightings f n id r) w (q.visit f n id r w) := by
  induction n generalizing id r w with
  | zero => exact absurd hn.1 (Nat.lt_irrefl 0)
  | succ n ih =>
    unfold visit
    split
    · next hentered =>
      have hknown := (hw (Nat.le_refl _) hentered).known hn
      exact ⟨(records_of_known hknown).symm, .inl⟩
    · -- the node is settled at the end only, but nothing on the way has read as little
      have hknows : q.Knows f (w.enter id r.position) r.position := by
        intro id' i' hi hentered
        rcases hasEntered_enter hentered with ⟨-, rfl⟩ | hbefore
        · exact absurd hi (Nat.lt_irrefl _)
        · exact hw (Nat.le_of_lt hi) hbefore
      have hfinish {w' : Walk} (h : q.Explores f (q.sightings f (n + 1) id r)
          (w.enter id r.position) w') : q.Explores f (q.sightings f (n + 1) id r) w w' := by
        refine ⟨h.found, fun {id' i'} hentered => ?_⟩
        rcases h.settled hentered with hbefore | hsettled
        · rcases hasEntered_enter hbefore with ⟨rfl, rfl⟩ | hbefore
          · refine .inr ⟨n + 1, r, rfl, hn, fun s hs => ?_⟩
            rw [h.found]
            exact known_records hs _
          · exact .inl hbefore
        · exact .inr hsettled
      refine hfinish ?_
      unfold sightings
      cases f.node? id with
      | none => exact .nil q f _
      | some node =>
        dsimp only
        split
        · exact explores_recordAll q f _ _
        · next hi =>
          refine explores_foldl (i := r.position) (fun move hmove w hw => ?_) hknows
          cases move with
          | enter edge child stop =>
            have hlt := lt_of_mem_stops (of_enter_mem_moves hmove).2
            exact ih (hn.step hi hlt) fun hle => hw (Nat.lt_of_lt_of_le hlt hle)
          | breakOff edge child => exact explores_recordAll q f _ _

end

section
variable (q : Query) (f : Forest) (root : SlotKey)

/-- A walk records what it would come across without a memory. -/
theorem run_eq :
    q.run f root = (q.sightings f (q.tokens.size + 1) root .start).foldl record [] := by
  have henough : q.Enough (q.tokens.size + 1) Reach.start.position :=
    ⟨Nat.succ_pos _, by simp [Reach.start]⟩
  refine (explores_visit henough fun {id i} _ hentered => ?_).found
  -- nothing has been entered at the start
  simp only [Walk.hasEntered, Array.getElem?_replicate] at hentered
  split at hentered <;> simp at hentered

/-- What a walk finds of a key is the best of what it comes across. -/
theorem find?_run (k : SlotKey) : (q.run f root).find? k =
    best (((q.sightings f (q.tokens.size + 1) root .start).filter (·.1 = k)).map (·.2)) := by
  rw [run_eq, find?_records]

theorem distinct_run : (q.run f root).Distinct := by
  rw [run_eq]
  exact distinct_records _

end

end Query

end StepLinker
