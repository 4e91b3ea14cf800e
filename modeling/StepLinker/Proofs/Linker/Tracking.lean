import Mathlib.Algebra.GroupWithZero.Nat
import StepLinker.Linker
import StepLinker.Proofs.Linker.Refresh

/-!
# Keys and definitions of a linker

A linker keeps the keys of each registered source beside the tree. `Consistent` says that the two
belong together: the keys of a source are those of its definitions in the tree, and no definition
is without a registered source. Registering, updating and unregistering are made of two steps,
`dropped` and `refresh`, and each of them keeps it, so that it holds of every linker that can come
about (`Reachable`), and of those that come about with any `Genuine` sources (`ReachableWith`). What
follows from it for keys and counts is collected in `Accounted`.
-/

namespace StepLinker

/-- The sources there are. What a file holds of a declaration compiled beforehand is what the
declaration compiles to. -/
inductive Source.Shipped : Source → Prop where
  | native (uid name : String) (steps : List NativeStep) : Shipped (.native uid name steps)
  | ofFile (file : TestFile) (compiled : ∀ d ∈ file.declared, ∀ p, d.compiled = some p →
      Pattern.ofDeclaration d.declaration = .ok p) : Shipped (.ofFile file)
  | interaction (uid name : String) (steps : List InteractionStep) :
      Shipped (.interaction uid name steps)

/-- The definitions carry the name of the source, and their patterns are those of their
declarations. -/
def Source.Genuine (s : Source) : Prop :=
  ∀ d ∈ s.definitions, d.source = s.uid ∧ d.Compiled

theorem Source.Shipped.genuine {s : Source} (h : s.Shipped) : s.Genuine := by
  intro d hd
  cases h with
  | native uid name steps =>
    obtain ⟨step, -, rfl⟩ := List.mem_map.1 hd
    exact ⟨rfl, rfl⟩
  | ofFile file compiled =>
    obtain ⟨step, hstep, rfl⟩ := List.mem_map.1 hd
    refine ⟨rfl, ?_⟩
    unfold Definition.Compiled Definition.pattern
    rcases hp : step.compiled with _ | p
    · rfl
    · exact (compiled step hstep p hp).symm
  | interaction uid name steps =>
    obtain ⟨step, -, rfl⟩ := List.mem_map.1 hd
    exact ⟨rfl, rfl⟩

namespace Linker

/-- The linkers that come about by registering, updating and unregistering sources, in any order
and number. -/
inductive Reachable : Linker → Prop where
  | new (options : LinkerOptions) : Reachable (new options)
  | register {l : Linker} {s : Source} : Reachable l → s.Shipped → Reachable (l.register s).2
  | update {l : Linker} {s : Source} : Reachable l → s.Shipped → Reachable (l.update s).2
  | unregister {l : Linker} (uid : String) : Reachable l → Reachable (l.unregister uid).2

/-- The linkers that come about in the same way with sources of some kind. -/
inductive ReachableWith (P : Source → Prop) : Linker → Prop where
  | new (options : LinkerOptions) : ReachableWith P (new options)
  | register {l : Linker} {s : Source} : ReachableWith P l → P s →
      ReachableWith P (l.register s).2
  | update {l : Linker} {s : Source} : ReachableWith P l → P s → ReachableWith P (l.update s).2
  | unregister {l : Linker} (uid : String) : ReachableWith P l →
      ReachableWith P (l.unregister uid).2

theorem Reachable.reachableWith {l : Linker} (h : l.Reachable) {P : Source → Prop}
    (hP : ∀ s, s.Shipped → P s) : l.ReachableWith P := by
  induction h with
  | new options => exact .new options
  | register _ hs ih => exact .register ih (hP _ hs)
  | update _ hs ih => exact .update ih (hP _ hs)
  | unregister uid _ ih => exact .unregister uid ih

structure Consistent (l : Linker) : Prop where
  tree : l.tree.Reachable
  uids : l.registered.Distinct
  keys : ∀ uid r, l.registered.find? uid = some r → r.keys.Distinct
  tracks : ∀ uid r, l.registered.find? uid = some r → l.tree.Tracks uid r.keys.find?
  owned : ∀ k d, l.tree.get? k = some d → ∃ r, l.registered.find? d.source = some r

theorem consistent_new (options : LinkerOptions) : (new options).Consistent where
  tree := .empty
  uids := List.nodup_nil
  keys _ _ hr := by cases hr
  tracks _ _ hr := by cases hr
  owned k d hd := by
    have hnone := MatchingTree.get?_empty k
    rw [show (new options).tree = .empty from rfl, hnone] at hd
    cases hd

section
variable {l : Linker} {uid : String} {r : Registration} {k : SlotKey}

theorem Consistent.mem_keys (h : l.Consistent) (hr : l.registered.find? uid = some r)
    (s : Signature) (k : SlotKey) :
    (s, k) ∈ r.keys ↔ ∃ d, l.tree.get? k = some d ∧ d.source = uid ∧ d.signature = s := by
  rw [← (h.keys uid r hr).find?_eq_some]
  exact h.tracks uid r hr s k

theorem Consistent.mem_map_keys (h : l.Consistent) (hr : l.registered.find? uid = some r) :
    k ∈ r.keys.map (·.2) ↔ ∃ d, l.tree.get? k = some d ∧ d.source = uid := by
  rw [List.mem_map]
  constructor
  · rintro ⟨⟨s, k'⟩, hk, rfl⟩
    obtain ⟨d, hd, hsource, -⟩ := (h.mem_keys hr s k').1 hk
    exact ⟨d, hd, hsource⟩
  · rintro ⟨d, hd, hsource⟩
    exact ⟨(d.signature, k), (h.mem_keys hr _ k).2 ⟨d, hd, hsource, rfl⟩, rfl⟩

theorem Consistent.source_ne (h : l.Consistent) (hr : l.registered.find? uid = none)
    {d : Definition} (hd : l.tree.get? k = some d) : d.source ≠ uid := by
  rintro rfl
  obtain ⟨r, hr'⟩ := h.owned k d hd
  rw [hr] at hr'
  cases hr'

end

/-! ## Dropping a source -/

/-- The linker without the source, if it is registered. -/
def dropped (l : Linker) (uid : String) : Linker :=
  (l.unregister uid).2

theorem register_eq (l : Linker) (s : Source) : l.register s = (l.dropped s.uid).refresh s :=
  rfl

section
variable {l : Linker} {uid : String} {s : Source}

theorem dropped_of_not_registered (h : l.registered.find? uid = none) : l.dropped uid = l := by
  rw [dropped, unregister, h]

theorem tree_dropped {r : Registration} (h : l.registered.find? uid = some r) :
    (l.dropped uid).tree = (Refresh.removeAll l.tree (r.keys.map (·.2))).2 := by
  rw [dropped, unregister, h]

theorem registered_dropped (l : Linker) (uid : String) :
    (l.dropped uid).registered = l.registered.erase uid := by
  rcases hr : l.registered.find? uid with _ | r
  · rw [dropped_of_not_registered hr, Keyed.erase_eq_self hr]
  · rw [dropped, unregister, hr]

/-- Dropping a source takes out its definitions and no others. -/
theorem Consistent.get?_dropped (h : l.Consistent) (uid : String) (k : SlotKey) (d : Definition) :
    (l.dropped uid).tree.get? k = some d ↔ l.tree.get? k = some d ∧ d.source ≠ uid := by
  rcases hr : l.registered.find? uid with _ | r
  · rw [dropped_of_not_registered hr]
    exact ⟨fun hd => ⟨hd, h.source_ne hr hd⟩, And.left⟩
  · rw [tree_dropped hr, Refresh.get?_removeAll]
    split
    · next hgone =>
      obtain ⟨d', hd', hsource⟩ := (h.mem_map_keys hr).1 hgone
      constructor
      · intro hnone
        cases hnone
      · rintro ⟨hd, hne⟩
        rw [hd'] at hd
        cases hd
        exact absurd hsource hne
    · next hstays =>
      refine ⟨fun hd => ⟨hd, fun hsource => hstays ?_⟩, And.left⟩
      exact (h.mem_map_keys hr).2 ⟨d, hd, hsource⟩

theorem Consistent.dropped (h : l.Consistent) (uid : String) : (l.dropped uid).Consistent := by
  have hfind (uid' : String) (r : Registration) :
      (l.dropped uid).registered.find? uid' = some r ↔
        uid ≠ uid' ∧ l.registered.find? uid' = some r := by
    rw [registered_dropped, Keyed.find?_erase]
    by_cases huid : uid = uid'
    · simp [huid]
    · simp [huid]
  refine ⟨?_, ?_, fun uid' r hr => ?_, fun uid' r hr s k => ?_, fun k d hd => ?_⟩
  · rcases hr : l.registered.find? uid with _ | r
    · rw [dropped_of_not_registered hr]
      exact h.tree
    · rw [tree_dropped hr]
      exact Refresh.reachable_removeAll h.tree _
  · rw [registered_dropped]
    exact h.uids.erase uid
  · exact h.keys uid' r ((hfind uid' r).1 hr).2
  · obtain ⟨hne, hr⟩ := (hfind uid' r).1 hr
    rw [h.tracks uid' r hr s k]
    simp only [h.get?_dropped]
    constructor
    · rintro ⟨d, hd, hsource, hs⟩
      exact ⟨d, ⟨hd, hsource ▸ Ne.symm hne⟩, hsource, hs⟩
    · rintro ⟨d, ⟨hd, -⟩, hsource, hs⟩
      exact ⟨d, hd, hsource, hs⟩
  · obtain ⟨hd, hne⟩ := (h.get?_dropped uid k d).1 hd
    obtain ⟨r, hr⟩ := h.owned k d hd
    exact ⟨r, (hfind _ r).2 ⟨Ne.symm hne, hr⟩⟩

/-! ## Refreshing a source -/

def keysOf (l : Linker) (uid : String) : Keyed Signature SlotKey :=
  ((l.registered.find? uid).map (·.keys)).getD []

theorem keysOf_refresh (l : Linker) (s : Source) (uid : String) :
    (l.refresh s).2.keysOf uid = if s.uid = uid then
      (Refresh.run l.tree (l.keysOf s.uid) s).current else l.keysOf uid := by
  unfold keysOf Linker.refresh
  simp only [Keyed.find?_insert, Keyed.find?_erase]
  split <;> rfl

theorem keysOf_dropped (l : Linker) (uid uid' : String) :
    (l.dropped uid).keysOf uid' = if uid = uid' then [] else l.keysOf uid' := by
  unfold keysOf
  rw [registered_dropped, Keyed.find?_erase]
  split <;> rfl

theorem tree_dropped_eq (l : Linker) (uid : String) :
    (l.dropped uid).tree = (Refresh.removeAll l.tree ((l.keysOf uid).map (·.2))).2 := by
  rcases hr : l.registered.find? uid with _ | r
  · rw [dropped_of_not_registered hr, keysOf, hr]
    rfl
  · rw [tree_dropped hr, keysOf, hr]
    rfl

theorem Consistent.distinct_keysOf (h : l.Consistent) (uid : String) :
    (l.keysOf uid).Distinct := by
  unfold keysOf
  rcases hr : l.registered.find? uid with _ | r
  · exact List.nodup_nil
  · exact h.keys uid r hr

theorem Consistent.tracks_keysOf (h : l.Consistent) (uid : String) :
    l.tree.Tracks uid (l.keysOf uid).find? := by
  unfold keysOf
  rcases hr : l.registered.find? uid with _ | r
  · refine fun s k => ⟨nofun, ?_⟩
    rintro ⟨d, hd, hsource, -⟩
    exact absurd hsource (h.source_ne hr hd)
  · exact h.tracks uid r hr

theorem Consistent.sound_start (h : l.Consistent) (uid : String) :
    (Refresh.start l.tree (l.keysOf uid)).Sound uid :=
  .start h.tree (h.distinct_keysOf uid) (h.tracks_keysOf uid)

theorem Consistent.finished_refresh (h : l.Consistent) (hs : s.Genuine) :
    ∃ r, Refresh.Finished s.uid s.name l.tree s.definitions r ∧
      l.refresh s = (⟨some r.summary, r.diagnostics⟩,
        { l with
          tree := r.tree
          registered := (l.registered.erase s.uid).insert s.uid ⟨s.name, r.current⟩ }) :=
  ⟨_, ((h.sound_start s.uid).foldl hs).finish, rfl⟩

theorem Consistent.refresh (h : l.Consistent) (hs : s.Genuine) : (l.refresh s).2.Consistent := by
  obtain ⟨r, hfinished, hrefresh⟩ := h.finished_refresh hs
  rw [hrefresh]
  have hfind (uid : String) :
      ((l.registered.erase s.uid).insert s.uid (⟨s.name, r.current⟩ : Registration)).find? uid =
        if s.uid = uid then some ⟨s.name, r.current⟩ else l.registered.find? uid := by
    rw [Keyed.find?_insert, Keyed.find?_erase]
    split <;> rfl
  refine ⟨hfinished.tree, (h.uids.erase _).insert _ _, fun uid r' hr => ?_,
    fun uid r' hr s' k => ?_, fun k d hd => ?_⟩
  · rw [hfind] at hr
    split at hr
    · cases hr
      exact hfinished.current
    · exact h.keys uid r' hr
  · rw [hfind] at hr
    split at hr
    · next huid =>
      subst huid
      cases hr
      exact hfinished.tracks s' k
    · next hne =>
      rw [h.tracks uid r' hr s' k]
      refine exists_congr fun d => and_congr_left ?_
      rintro ⟨hsource, -⟩
      exact (hfinished.others k d (hsource ▸ Ne.symm hne)).symm
  · show ∃ r', Keyed.find? _ d.source = some r'
    rw [hfind]
    split
    · exact ⟨_, rfl⟩
    · next hne => exact h.owned k d ((hfinished.others k d (Ne.symm hne)).1 hd)

theorem Consistent.register (h : l.Consistent) (hs : s.Genuine) : (l.register s).2.Consistent := by
  rw [register_eq]
  exact (h.dropped s.uid).refresh hs

theorem Consistent.update (h : l.Consistent) (hs : s.Genuine) : (l.update s).2.Consistent := by
  unfold Linker.update
  split
  · exact h.refresh hs
  · exact h.register hs

end

theorem ReachableWith.consistent {l : Linker} (h : l.ReachableWith Source.Genuine) :
    l.Consistent := by
  induction h with
  | new options => exact consistent_new options
  | register _ hs ih => exact ih.register hs
  | update _ hs ih => exact ih.update hs
  | unregister uid _ ih => exact ih.dropped uid

theorem Reachable.consistent {l : Linker} (h : l.Reachable) : l.Consistent :=
  (h.reachableWith fun _ => Source.Shipped.genuine).consistent

/-! ## Keys and counts -/

section
variable {l : Linker} {uid : String} {r : Registration} {k : SlotKey}

theorem Consistent.nodup_keys (h : l.Consistent) (hr : l.registered.find? uid = some r) :
    (r.keys.map (·.2)).Nodup :=
  (h.tracks uid r hr).nodup_keys (h.keys uid r hr) fun _ _ hk => hk

/-- The keys of all sources are the keys of the tree. -/
theorem Consistent.perm_keys (h : l.Consistent) :
    (l.registered.flatMap fun p => p.2.keys.map (·.2)).Perm
      (l.tree.definitions.entries.map (·.1)) := by
  have hfind {p : String × Registration} (hp : p ∈ l.registered) :
      l.registered.find? p.1 = some p.2 := h.uids.find?_eq_some.2 hp
  have hnodup : (l.registered.flatMap fun p => p.2.keys.map (·.2)).Nodup := by
    rw [List.nodup_flatMap]
    refine ⟨fun p hp => h.nodup_keys (hfind hp), ?_⟩
    -- sources have distinct identities, and a definition belongs to one source
    refine (List.pairwise_map.1 h.uids).imp_of_mem ?_
    intro p q hp hq hne k hk hk'
    obtain ⟨d, hd, hsource⟩ := (h.mem_map_keys (hfind hp)).1 hk
    obtain ⟨d', hd', hsource'⟩ := (h.mem_map_keys (hfind hq)).1 hk'
    rw [hd] at hd'
    cases hd'
    exact hne (hsource.symm.trans hsource')
  rw [List.perm_ext_iff_of_nodup hnodup (SlotMap.nodup_entries _)]
  intro k
  simp only [List.mem_flatMap, List.mem_map, Prod.exists, exists_and_right, exists_eq_right]
  constructor
  · rintro ⟨uid, r, hp, s, hk⟩
    obtain ⟨d, hd, -⟩ := (h.mem_keys (hfind hp) s k).1 hk
    obtain ⟨e, he, -⟩ := MatchingTree.get?_eq_some.1 hd
    exact ⟨e, SlotMap.mem_entries.2 he⟩
  · rintro ⟨e, he⟩
    have hd := MatchingTree.get?_eq_some.2 ⟨e, SlotMap.mem_entries.1 he, rfl⟩
    obtain ⟨r, hr⟩ := h.owned k _ hd
    exact ⟨_, r, Keyed.mem_of_find? hr, _, (h.mem_keys hr _ k).2 ⟨_, hd, rfl, rfl⟩⟩

theorem Consistent.definitionCount_eq (h : l.Consistent) :
    l.tree.definitionCount = (l.registered.map fun p => p.2.keys.length).sum := by
  rw [MatchingTree.definitionCount, ← SlotMap.length_entries h.tree.wellFormed.slots,
    ← List.length_map, ← h.perm_keys.length_eq, List.length_flatMap]
  simp

end

/-- The keys of the sources and the definitions in the tree account for one another. -/
structure Accounted (l : Linker) : Prop where
  uids : (l.registered.map (·.1)).Nodup
  /-- The keys of a source stand for its definitions, one for each, under one signature each. -/
  bijection : ∀ uid r, l.registered.find? uid = some r →
    (r.keys.map (·.1)).Nodup ∧ (r.keys.map (·.2)).Nodup ∧
      ∀ k, k ∈ r.keys.map (·.2) ↔ ∃ d, l.tree.get? k = some d ∧ d.source = uid
  /-- A key finds a definition with the signature it is kept under. -/
  resolves : ∀ uid r s k, l.registered.find? uid = some r → (s, k) ∈ r.keys →
    ∃ d, l.tree.get? k = some d ∧ d.type = s.type ∧ d.declaration = s.declaration
  /-- No two signatures and no two sources share a key. -/
  unshared : ∀ uid r s uid' r' s' k,
    l.registered.find? uid = some r → l.registered.find? uid' = some r' →
      (s, k) ∈ r.keys → (s', k) ∈ r'.keys → uid = uid' ∧ s = s'
  /-- No conjunction is kept. -/
  bound : ∀ uid r s k, l.registered.find? uid = some r → (s, k) ∈ r.keys →
    s.type ≠ .conjunction
  /-- Every definition belongs to a registered source. -/
  owned : ∀ k d, l.tree.get? k = some d → l.isRegistered d.source = true
  count : l.tree.definitionCount = (l.registered.map fun p => p.2.keys.length).sum

theorem Consistent.accounted {l : Linker} (h : l.Consistent) : l.Accounted where
  uids := h.uids
  bijection uid r hr := ⟨h.keys uid r hr, h.nodup_keys hr, fun _ => h.mem_map_keys hr⟩
  resolves uid r s k hr hk := by
    obtain ⟨d, hd, -, rfl⟩ := (h.mem_keys hr s k).1 hk
    exact ⟨d, hd, rfl, rfl⟩
  unshared uid r s uid' r' s' k hr hr' hk hk' := by
    obtain ⟨d, hd, rfl, rfl⟩ := (h.mem_keys hr s k).1 hk
    obtain ⟨d', hd', rfl, rfl⟩ := (h.mem_keys hr' s' k).1 hk'
    rw [hd] at hd'
    cases hd'
    exact ⟨rfl, rfl⟩
  bound uid r s k hr hk := by
    obtain ⟨d, hd, -, rfl⟩ := (h.mem_keys hr s k).1 hk
    exact h.tree.type_ne_conjunction hd
  owned k d hd := by
    obtain ⟨r, hr⟩ := h.owned k d hd
    rw [isRegistered, Keyed.contains, hr]
    rfl
  count := h.definitionCount_eq

/-- Tracker and tree never drift apart. -/
theorem Reachable.keys_account {l : Linker} (h : l.Reachable) : l.Accounted :=
  h.consistent.accounted

/-- A handler, and a file that is updated: of its two definitions one stays, and one of the two
that it has now cannot be added. -/
theorem keys_account_greetings :
    let declared (type : StepType) (declaration : String) : DeclaredStep :=
      ⟨type, declaration, ⟨1, 1⟩, .optional, none, none, []⟩
    let handler : Source :=
      .native "native" "handlers" [⟨.phase .action, "I wave", "wave", .optional, none⟩]
    let before : Source := .ofFile ⟨"greetings", none,
      [declared (.phase .action) "I greet {who}", declared (.phase .outcome) "I smile"]⟩
    let after : Source := .ofFile ⟨"greetings", none,
      [declared (.phase .action) "I greet {who}", declared .conjunction "I bow"]⟩
    let l := ((((new .standard).register handler).2.register before).2.update after).2
    l.Reachable ∧ l.Accounted ∧ l.tree.definitionCount = 2 := by
  intro declared handler before after l
  have hl : l.Reachable :=
    .update (.register (.register (.new .standard) (.native _ _ _)) (.ofFile _ (by simp)))
      (.ofFile _ (by simp [declared]))
  exact ⟨hl, hl.keys_account, by decide +kernel⟩

end Linker

end StepLinker
