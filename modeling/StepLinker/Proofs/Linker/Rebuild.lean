import StepLinker.Proofs.Linker.Tracking
import StepLinker.Proofs.Tree.Exact
import StepLinker.Proofs.Tree.Shape

/-!
# Updating and registering anew

Updating a source replaces definitions under their keys and leaves the nodes as they are; registering
it again takes everything out and builds it up anew. Both leave the same linker behind, keys apart
(`Alike`). For that it is enough that they leave the same definitions: what a source has after a
refresh is the latest acceptable definition under each signature, whatever it had before
(`mem_live_refresh`), and two consistent linkers with the same definitions are alike
(`Consistent.alike`). For the same reason nothing depends on the order in which the definitions of a
source are removed: in any order as many are, and what is left is alike (`dropped_of_perm`,
`refresh_of_perm`); linkers that are alike stay so (`alike_dropped`, `alike_refresh`); and so two of
them that differ in the orders alone cannot be told apart after any number of calls
(`Reordered.alike`).
-/

namespace StepLinker.Linker

/-- The definition that is kept for the source under the signature. -/
def kept? (l : Linker) (uid : String) (s : Signature) : Option Definition :=
  (l.registered.find? uid).bind fun r => (r.keys.find? s).bind l.tree.get?

/-- The linkers cannot be told apart by what they show, keys aside. -/
structure Alike (l l' : Linker) : Prop where
  registered : l.registered.map (fun p => (p.1, p.2.name)) =
    l'.registered.map fun p => (p.1, p.2.name)
  kept : ∀ uid s, l.kept? uid s = l'.kept? uid s
  definitions : ∀ uid, (l.tree.definitionsOf uid).Perm (l'.tree.definitionsOf uid)
  definitionCount : l.tree.definitionCount = l'.tree.definitionCount
  nodeCount : l.tree.nodeCount = l'.tree.nodeCount
  exactMatches : ∀ type statement allowPartial,
    ((l.tree.exactMatches type statement allowPartial).map Match.view).Perm
      ((l'.tree.exactMatches type statement allowPartial).map Match.view)

section
variable {l l' : Linker} {s : Source}

theorem Consistent.key_unique (h : l.Consistent) {k k' : SlotKey} {d : Definition}
    (hd : l.tree.get? k = some d) (hd' : l.tree.get? k' = some d) : k = k' := by
  obtain ⟨r, hr⟩ := h.owned k d hd
  have hk := (h.tracks _ r hr _ k).2 ⟨d, hd, rfl, rfl⟩
  have hk' := (h.tracks _ r hr _ k').2 ⟨d, hd', rfl, rfl⟩
  rw [hk] at hk'
  exact Option.some.inj hk'

theorem Consistent.kept?_eq_some (h : l.Consistent) {uid : String} {s : Signature}
    {d : Definition} :
    l.kept? uid s = some d ↔ d ∈ l.tree.live ∧ d.source = uid ∧ d.signature = s := by
  unfold kept?
  rw [MatchingTree.mem_live]
  constructor
  · intro hkept
    obtain ⟨r, hr, hkept⟩ := Option.bind_eq_some_iff.1 hkept
    obtain ⟨k, hk, hd⟩ := Option.bind_eq_some_iff.1 hkept
    obtain ⟨d', hd', hsource, hs⟩ := (h.tracks uid r hr s k).1 hk
    rw [hd] at hd'
    cases hd'
    exact ⟨⟨k, hd⟩, hsource, hs⟩
  · rintro ⟨⟨k, hd⟩, rfl, rfl⟩
    obtain ⟨r, hr⟩ := h.owned k d hd
    have hk := (h.tracks _ r hr d.signature k).2 ⟨d, hd, rfl, rfl⟩
    rw [hr, Option.bind_some, hk, Option.bind_some, hd]

theorem Consistent.perm_live (h : l.Consistent) (h' : l'.Consistent)
    (hlive : ∀ d, d ∈ l.tree.live ↔ d ∈ l'.tree.live) : l.tree.live.Perm l'.tree.live := by
  rw [List.perm_ext_iff_of_nodup (MatchingTree.nodup_live fun _ _ _ => h.key_unique)
    (MatchingTree.nodup_live fun _ _ _ => h'.key_unique)]
  exact hlive

theorem Consistent.definitionCount_congr (h : l.Consistent) (h' : l'.Consistent)
    (hlive : ∀ d, d ∈ l.tree.live ↔ d ∈ l'.tree.live) :
    l.tree.definitionCount = l'.tree.definitionCount := by
  rw [← h.tree.wellFormed.length_live, ← h'.tree.wellFormed.length_live]
  exact (h.perm_live h' hlive).length_eq

theorem Consistent.alike (h : l.Consistent) (h' : l'.Consistent)
    (hregistered : l.registered.map (fun p => (p.1, p.2.name)) =
      l'.registered.map fun p => (p.1, p.2.name))
    (hlive : ∀ d, d ∈ l.tree.live ↔ d ∈ l'.tree.live) : l.Alike l' := by
  have ht := h.tree.wellFormed
  have ht' := h'.tree.wellFormed
  refine ⟨hregistered, fun uid s => Option.ext fun d => ?_,
    fun uid => (h.perm_live h' hlive).filter _, h.definitionCount_congr h' hlive,
    ht.nodeCount_congr ht' hlive, ?_⟩
  · rw [h.kept?_eq_some, h'.kept?_eq_some, hlive]
  · intro type statement allowPartial
    exact ht.perm_views ht' (fun _ _ _ => h.key_unique) (fun _ _ _ => h'.key_unique) hlive type

/-- What a source has after a refresh depends on what it supplies and on nothing else. -/
theorem Consistent.mem_live_refresh (h : l.Consistent) (hs : s.Shipped) (d : Definition) :
    d ∈ (l.refresh s).2.tree.live ↔
      if d.source = s.uid then Definition.latest? s.definitions d.signature = some d
      else d ∈ l.tree.live := by
  obtain ⟨r, hfinished, hrefresh⟩ := h.finished_refresh hs.genuine
  rw [hrefresh, MatchingTree.mem_live, MatchingTree.mem_live]
  split
  · next hd => exact hfinished.latest d hd
  · next hd => exact exists_congr fun k => hfinished.others k d hd

theorem Consistent.mem_live_dropped (h : l.Consistent) (uid : String) (d : Definition) :
    d ∈ (l.dropped uid).tree.live ↔ d ∈ l.tree.live ∧ d.source ≠ uid := by
  simp only [MatchingTree.mem_live, h.get?_dropped, exists_and_right]

theorem Consistent.messages_refresh (h : l.Consistent) (hs : s.Shipped) :
    (l.refresh s).1.messages = s.definitions.filterMap (Definition.report? s.name) := by
  obtain ⟨r, hfinished, hrefresh⟩ := h.finished_refresh hs.genuine
  rw [hrefresh]
  exact hfinished.diagnostics

theorem registered_refresh (l : Linker) (s : Source) :
    (l.refresh s).2.registered.map (fun p => (p.1, p.2.name)) =
      Keyed.insert ((l.registered.erase s.uid).map fun p => (p.1, p.2.name)) s.uid s.name :=
  Keyed.map_insert Registration.name _ _ _

/-- A refresh of a source does not depend on what was registered of it before. -/
theorem Consistent.refresh_alike_dropped (h : l.Consistent) (hs : s.Shipped) :
    (l.refresh s).2.Alike ((l.dropped s.uid).refresh s).2 ∧
      (l.refresh s).1.messages = ((l.dropped s.uid).refresh s).1.messages := by
  have hdropped := h.dropped s.uid
  refine ⟨(h.refresh hs.genuine).alike (hdropped.refresh hs.genuine) ?_ fun d => ?_, ?_⟩
  · have herase : Keyed.erase (l.registered.erase s.uid) s.uid = l.registered.erase s.uid :=
      Keyed.erase_eq_self (by rw [Keyed.find?_erase, if_pos rfl])
    rw [registered_refresh, registered_refresh, registered_dropped, herase]
  · rw [h.mem_live_refresh hs, hdropped.mem_live_refresh hs]
    split
    · exact Iff.rfl
    · next hd =>
      rw [h.mem_live_dropped]
      exact ⟨fun hlive => ⟨hlive, hd⟩, And.left⟩
  · rw [h.messages_refresh hs, hdropped.messages_refresh hs]

/-! ## The order of removal

When several definitions are removed at once the order decides which key and which node is used
again next. Nothing else depends on it, then or later. -/

theorem Consistent.of_get? (h : l.Consistent) {t : MatchingTree} (ht : t.Reachable)
    (hget : ∀ k, t.get? k = l.tree.get? k) : ({ l with tree := t } : Linker).Consistent := by
  refine ⟨ht, h.uids, h.keys, fun uid r hr s k => ?_, fun k d hd => ?_⟩
  · simp only [hget]
    exact h.tracks uid r hr s k
  · exact h.owned k d ((hget k).symm.trans hd)

theorem Consistent.alike_of_get? (h : l.Consistent) {t : MatchingTree} (ht : t.Reachable)
    (hget : ∀ k, t.get? k = l.tree.get? k) : ({ l with tree := t } : Linker).Alike l := by
  refine (h.of_get? ht hget).alike h rfl fun d => ?_
  simp only [MatchingTree.mem_live, hget]

/-- The linker without the source, whose definitions are removed in the order of the keys. -/
def droppedBy (l : Linker) (uid : String) (ks : List SlotKey) : Linker :=
  { l.dropped uid with tree := (Refresh.removeAll l.tree ks).2 }

/-- The refresh with the source, up to where what has not been supplied again is removed. -/
def supplied (l : Linker) (s : Source) : Refresh :=
  s.definitions.foldl (Refresh.supply s.name) (.start l.tree (l.keysOf s.uid))

/-- The linker after a refresh with the source that removes in the order of the keys. -/
def refreshedBy (l : Linker) (s : Source) (ks : List SlotKey) : Linker :=
  { (l.refresh s).2 with tree := (Refresh.removeAll (l.supplied s).tree ks).2 }

theorem Consistent.dropped_of_perm (h : l.Consistent) {uid : String} {ks : List SlotKey}
    (hks : ((l.keysOf uid).map (·.2)).Perm ks) :
    (l.unregister uid).1 = (if l.isRegistered uid then .ok (Refresh.removeAll l.tree ks).1
      else .error ⟨uid⟩) ∧
      (l.droppedBy uid ks).Consistent ∧ (l.droppedBy uid ks).Alike (l.dropped uid) := by
  obtain ⟨hcount, hget⟩ := Refresh.removeAll_perm l.tree hks
  have htree : (Refresh.removeAll l.tree ks).2.Reachable := Refresh.reachable_removeAll h.tree ks
  have hsame (k : SlotKey) :
      (Refresh.removeAll l.tree ks).2.get? k = (l.dropped uid).tree.get? k := by
    rw [hget, tree_dropped_eq]
  refine ⟨?_, (h.dropped uid).of_get? htree hsame, (h.dropped uid).alike_of_get? htree hsame⟩
  rw [hcount]
  rcases hr : l.registered.find? uid with _ | r <;>
    simp [unregister, isRegistered, Keyed.contains, keysOf, hr]

theorem Consistent.refresh_of_perm (h : l.Consistent) (hs : s.Shipped) {ks : List SlotKey}
    (hks : ((l.supplied s).previous.map (·.2)).Perm ks) :
    (l.refresh s).1.output = some { (l.supplied s).summary with
        removed := (Refresh.removeAll (l.supplied s).tree ks).1 } ∧
      (l.refreshedBy s ks).Consistent ∧ (l.refreshedBy s ks).Alike (l.refresh s).2 := by
  obtain ⟨hcount, hget⟩ := Refresh.removeAll_perm (l.supplied s).tree hks
  have hsound : (l.supplied s).Sound s.uid := ((h.sound_start s.uid).foldl hs.genuine).sound
  have htree := Refresh.reachable_removeAll hsound.tree ks
  have hafter := h.refresh hs.genuine
  refine ⟨?_, hafter.of_get? htree hget, hafter.alike_of_get? htree hget⟩
  rw [hcount]
  rfl

theorem Alike.mem_live (h : l.Alike l') (d : Definition) :
    d ∈ l.tree.live ↔ d ∈ l'.tree.live := by
  have hmem := (h.definitions d.source).mem_iff (a := d)
  simpa only [MatchingTree.definitionsOf, MatchingTree.live, List.mem_filter, decide_true,
    and_true] using hmem

/-- Linkers that are alike stay so when the same source is dropped from both. -/
theorem Consistent.alike_dropped (h : l.Consistent) (h' : l'.Consistent) (halike : l.Alike l')
    (uid : String) : (l.dropped uid).Alike (l'.dropped uid) := by
  refine (h.dropped uid).alike (h'.dropped uid) ?_ fun d => ?_
  · rw [registered_dropped, registered_dropped, Keyed.map_erase Registration.name,
      Keyed.map_erase Registration.name, halike.registered]
  · rw [h.mem_live_dropped, h'.mem_live_dropped, halike.mem_live]

/-- Linkers that are alike stay so when both are refreshed with the same source, and report the
same. -/
theorem Consistent.alike_refresh (h : l.Consistent) (h' : l'.Consistent) (halike : l.Alike l')
    (hs : s.Shipped) : (l.refresh s).2.Alike (l'.refresh s).2 ∧
      (l.refresh s).1.messages = (l'.refresh s).1.messages := by
  refine ⟨(h.refresh hs.genuine).alike (h'.refresh hs.genuine) ?_ fun d => ?_, ?_⟩
  · rw [registered_refresh, registered_refresh, Keyed.map_erase Registration.name,
      Keyed.map_erase Registration.name, halike.registered]
  · rw [h.mem_live_refresh hs, h'.mem_live_refresh hs, halike.mem_live]
  · rw [h.messages_refresh hs, h'.messages_refresh hs]

theorem Alike.trans {l'' : Linker} (h : l.Alike l') (h' : l'.Alike l'') : l.Alike l'' where
  registered := h.registered.trans h'.registered
  kept uid s := (h.kept uid s).trans (h'.kept uid s)
  definitions uid := (h.definitions uid).trans (h'.definitions uid)
  definitionCount := h.definitionCount.trans h'.definitionCount
  nodeCount := h.nodeCount.trans h'.nodeCount
  exactMatches type statement allowPartial :=
    (h.exactMatches type statement allowPartial).trans (h'.exactMatches type statement allowPartial)

/-- The first linker has seen the same calls as the second, but removed in orders of its own.
Registering is dropping and refreshing, and updating is one of the two. -/
inductive Reordered : Linker → Linker → Prop where
  | new (options : LinkerOptions) : Reordered (new options) (new options)
  | drop {l l' : Linker} {ks : List SlotKey} (uid : String) : Reordered l l' →
      ((l.keysOf uid).map (·.2)).Perm ks → Reordered (l.droppedBy uid ks) (l'.dropped uid)
  | refresh {l l' : Linker} {s : Source} {ks : List SlotKey} : Reordered l l' → s.Shipped →
      ((l.supplied s).previous.map (·.2)).Perm ks → Reordered (l.refreshedBy s ks) (l'.refresh s).2

theorem Reordered.consistent (h : Reordered l l') : l.Consistent ∧ l'.Consistent := by
  induction h with
  | new options => exact ⟨consistent_new options, consistent_new options⟩
  | drop uid _ hks ih => exact ⟨(ih.1.dropped_of_perm hks).2.1, ih.2.dropped uid⟩
  | refresh _ hs hks ih => exact ⟨(ih.1.refresh_of_perm hs hks).2.1, ih.2.refresh hs.genuine⟩

/-- Whatever a linker has seen, it does not show in which orders it has removed. -/
theorem Reordered.alike (h : Reordered l l') : l.Alike l' := by
  induction h with
  | new options =>
    have hnew := consistent_new options
    exact hnew.alike hnew rfl fun _ => Iff.rfl
  | @drop l l' ks uid h hks ih =>
    obtain ⟨hl, hl'⟩ := h.consistent
    exact (hl.dropped_of_perm hks).2.2.trans (hl.alike_dropped hl' ih uid)
  | @refresh l l' s ks h hs hks ih =>
    obtain ⟨hl, hl'⟩ := h.consistent
    exact (hl.refresh_of_perm hs hks).2.2.trans (hl.alike_refresh hl' ih hs).1

end

/-- Updating a source and registering it anew cannot be told apart, nor can what they report. -/
theorem Reachable.update_alike_register {l : Linker} (hl : l.Reachable) {s : Source}
    (hs : s.Shipped) : (l.update s).2.Alike (l.register s).2 ∧
      (l.update s).1.messages = (l.register s).1.messages := by
  have h := hl.consistent
  unfold Linker.update
  split
  · rw [register_eq]
    exact h.refresh_alike_dropped hs
  · have hregister := h.register hs.genuine
    exact ⟨hregister.alike hregister rfl fun _ => Iff.rfl, rfl⟩

/-- A file that declares a step twice after the change, beside one that stays, one that goes and
one that cannot be added. -/
theorem update_alike_register_counter :
    let declared (type : StepType) (declaration : String) (table : TableRule) : DeclaredStep :=
      ⟨type, declaration, ⟨1, 1⟩, table, none, none, []⟩
    let before : Source := .ofFile ⟨"counter", none,
      [declared (.phase .action) "I add {n:int}" .optional,
        declared (.phase .action) "I clear it" .optional]⟩
    let after : Source := .ofFile ⟨"counter", none,
      [declared (.phase .action) "I add {n:int}" .required,
        declared (.phase .action) "I undo" .optional, declared .conjunction "I redo" .optional,
        declared (.phase .action) "I undo" .notSupported]⟩
    let l := ((new .standard).register before).2
    l.Reachable ∧ (l.update after).2.Alike (l.register after).2 ∧
      (l.update after).1.messages = (l.register after).1.messages ∧
      (l.register after).1.messages.length = 1 ∧ (l.update after).2.tree.definitionCount = 2 := by
  intro declared before after l
  have hl : l.Reachable := .register (.new .standard) (.ofFile _ (by simp [declared]))
  have hafter : after.Shipped := .ofFile _ (by simp [declared])
  obtain ⟨halike, hmessages⟩ := hl.update_alike_register hafter
  exact ⟨hl, halike, hmessages, by decide +kernel, by decide +kernel⟩

end StepLinker.Linker
