import StepLinker.Proofs.Linker.Rebuild
import StepLinker.Proofs.Linker.Rejection

/-!
# A refresh as a diff

A refresh touches as little as it can and counts all it does (`Diff`). Signatures that the source
had and still has keep their keys, the new ones are added, the others go; under each signature
stands the last definition supplied with it. `Tallied` says this of some definitions on the way: the
signatures move from the previous keys to the current ones, and a definition is an addition if and
only if it is the first with a signature not known yet. It holds of one definition
(`Sound.tallied`), joins up (`Tallied.cons`), and so holds of all of them.
-/

namespace StepLinker

def Definition.signatures (ds : List Definition) : Finset Signature :=
  ((ds.filter (·.isAcceptable)).map (·.signature)).toFinset

def Definition.lastAcceptable? (ds : List Definition) (s : Signature) : Option Definition :=
  (ds.filter fun d => d.isAcceptable && d.signature = s).getLast?

namespace Definition

section
variable {d : Definition} {ds : List Definition}

theorem mem_signatures {s : Signature} :
    s ∈ signatures ds ↔ ∃ d ∈ ds, d.isAcceptable = true ∧ d.signature = s := by
  simp [signatures, and_assoc]

theorem signatures_cons (d : Definition) (ds : List Definition) :
    signatures (d :: ds) = signatures [d] ∪ signatures ds := by
  ext s
  simp [mem_signatures]

theorem signatures_singleton (h : d.isAcceptable = true) : signatures [d] = {d.signature} := by
  rw [signatures, List.filter_cons_of_pos h]
  rfl

theorem signatures_singleton_of_not (h : ¬ d.isAcceptable = true) : signatures [d] = ∅ := by
  rw [signatures, List.filter_cons_of_neg h]
  rfl

theorem latest?_eq_lastAcceptable? (h : ∀ d ∈ ds, d.Compiled) (s : Signature) :
    latest? ds s = lastAcceptable? ds s := by
  unfold latest? lastAcceptable?
  rw [← List.head?_filter, ← List.getLast?_reverse, List.filter_reverse, List.reverse_reverse]
  congr 1
  refine List.filter_congr fun d hd => ?_
  congr 1
  rw [Bool.eq_iff_iff, Option.isNone_iff_eq_none, isAcceptable_iff (h d hd)]

end

end Definition

namespace Refresh

/-- The signatures that are known under a key. -/
def known (r : Refresh) : Finset Signature :=
  r.previous.domain ∪ r.current.domain

/-- The accounts of the way from `r` to `r'` on which `ds` are supplied. -/
structure Tallied (r : Refresh) (ds : List Definition) (r' : Refresh) : Prop where
  previous : r'.previous.domain = r.previous.domain \ Definition.signatures ds
  current : r'.current.domain = r.current.domain ∪ Definition.signatures ds
  kept : ∀ s k, r.keyOf? s = some k → r'.keyOf? s = some k
  added : r'.summary.added = r.summary.added + (Definition.signatures ds \ r.known).card
  taken : r'.summary.added + r'.summary.updated =
    r.summary.added + r.summary.updated + ds.countP (·.isAcceptable)

section
variable {uid name : String} {r r' r'' : Refresh} {d : Definition} {ds : List Definition}

theorem notMem_known {s : Signature} : s ∉ r.known ↔ r.keyOf? s = none := by
  rw [known, Finset.notMem_union, Keyed.notMem_domain, Keyed.notMem_domain, keyOf?,
    Option.or_eq_none_iff]

theorem Tallied.known (h : Tallied r ds r') :
    r'.known = r.known ∪ Definition.signatures ds := by
  unfold Refresh.known
  rw [h.previous, h.current, ← Finset.union_assoc, Finset.union_right_comm,
    Finset.sdiff_union_self_eq_union, Finset.union_right_comm]

theorem Tallied.refl (r : Refresh) : Tallied r [] r where
  previous := by simp [Definition.signatures]
  current := by simp [Definition.signatures]
  kept _ _ hk := hk
  added := by simp [Definition.signatures]
  taken := rfl

theorem Tallied.cons (h : Tallied r [d] r') (h' : Tallied r' ds r'') :
    Tallied r (d :: ds) r'' where
  previous := by
    rw [h'.previous, h.previous, Definition.signatures_cons d ds, sdiff_sdiff_left]
    rfl
  current := by
    rw [h'.current, h.current, Definition.signatures_cons d ds, Finset.union_assoc]
  kept s k hk := h'.kept s k (h.kept s k hk)
  added := by
    -- a signature of `ds` counts after `d` only if it is neither known before nor that of `d`
    have hsplit : Definition.signatures (d :: ds) \ r.known =
        (Definition.signatures [d] \ r.known) ∪ (Definition.signatures ds \ r'.known) := by
      rw [h.known, Definition.signatures_cons, Finset.union_sdiff_distrib]
      ext s
      simp only [Finset.mem_union, Finset.mem_sdiff]
      tauto
    have hdisjoint : Disjoint (Definition.signatures [d] \ r.known)
        (Definition.signatures ds \ r'.known) := by
      rw [Finset.disjoint_left, h.known]
      intro s hs hs'
      exact (Finset.mem_sdiff.1 hs').2 (Finset.mem_union_right _ (Finset.mem_sdiff.1 hs).1)
    rw [h'.added, h.added, hsplit, Finset.card_union_of_disjoint hdisjoint, Nat.add_assoc]
  taken := by
    have htaken := h.taken
    have htaken' := h'.taken
    rw [List.countP_singleton] at htaken
    rw [List.countP_cons]
    omega

/-! ## One definition -/

theorem Tallied.reject (r : Refresh) (name : String) (error : DefinitionError)
    (hd : ¬ d.isAcceptable = true) : Tallied r [d] (r.reject name d error) where
  previous := by
    rw [Definition.signatures_singleton_of_not hd, Finset.sdiff_empty]
    rfl
  current := by
    rw [Definition.signatures_singleton_of_not hd, Finset.union_empty]
    rfl
  kept _ _ hk := hk
  added := by
    rw [Definition.signatures_singleton_of_not hd, Finset.empty_sdiff]
    rfl
  taken := by
    rw [List.countP_singleton, if_neg hd]
    rfl

theorem Tallied.keep {k : SlotKey} {tree : MatchingTree} {summary : Summary}
    (hd : d.isAcceptable = true) (hkey : ∀ k', r.keyOf? d.signature = some k' → k = k')
    (hadded : summary.added = r.summary.added + ({d.signature} \ r.known).card)
    (htaken : summary.added + summary.updated = r.summary.added + r.summary.updated + 1) :
    Tallied r [d] (r.keep d k tree summary) where
  previous := by
    rw [Definition.signatures_singleton hd]
    exact Keyed.domain_erase _ _
  current := by
    rw [Definition.signatures_singleton hd]
    exact Keyed.domain_insert _ _ _
  kept s k' hk := by
    rw [keyOf?_keep]
    split
    · next hs =>
      subst hs
      rw [hkey k' hk]
    · exact hk
  added := by
    rw [Definition.signatures_singleton hd]
    exact hadded
  taken := by
    rw [List.countP_singleton, if_pos hd]
    exact htaken

theorem Sound.tallied (h : r.Sound uid) (hd : d.source = uid) (hcompiled : d.Compiled) :
    Tallied r [d] (Refresh.supply name r d) := by
  rcases hrefusal : d.refusal? with _ | error
  · have hacceptable := (Definition.isAcceptable_iff hcompiled).2 hrefusal
    obtain ⟨k, tree, -, -, ⟨hk, hsupply⟩ | ⟨hk, -, hsupply⟩⟩ :=
      h.supply_of_accepted name hd hcompiled hrefusal
    -- an update if the signature is known, so that it is no new one, and else an addition
    · have hknown : d.signature ∈ r.known := by
        by_contra hno
        rw [notMem_known, hk] at hno
        cases hno
      rw [hsupply]
      refine .keep hacceptable (fun k' hk' => ?_) ?_ ?_
      · rw [hk] at hk'
        exact Option.some.inj hk'
      · rw [Finset.sdiff_eq_empty_iff_subset.2 (Finset.singleton_subset_iff.2 hknown)]
        rfl
      · exact (Nat.add_assoc _ _ 1).symm
    · rw [hsupply]
      refine .keep hacceptable (fun k' hk' => ?_) ?_ ?_
      · rw [hk] at hk'
        cases hk'
      · rw [Finset.sdiff_eq_self_of_disjoint
          (Finset.disjoint_singleton_left.2 (notMem_known.2 hk))]
        rfl
      · exact Nat.add_right_comm _ 1 _
  · rw [h.bound.supply_of_refusal hrefusal]
    refine .reject r name error ?_
    rw [Definition.isAcceptable_iff hcompiled, hrefusal]
    nofun

/-! ## The whole refresh -/

theorem Sound.tallied_foldl (h : r.Sound uid) (hds : ∀ d ∈ ds, d.source = uid ∧ d.Compiled) :
    Tallied r ds (ds.foldl (Refresh.supply name) r) := by
  induction ds generalizing r with
  | nil => exact .refl r
  | cons d ds ih =>
    obtain ⟨⟨hd, hcompiled⟩, hds⟩ := List.forall_mem_cons.1 hds
    have hstep : Tallied r [d] (Refresh.supply name r d) := h.tallied hd hcompiled
    have hsupplied : Supplied uid name r [d] (Refresh.supply name r d) := h.supply hd hcompiled
    exact hstep.cons (ih hsupplied.sound hds)

theorem Tallied.current_start {t : MatchingTree} {previous : Keyed Signature SlotKey}
    (h : Tallied (start t previous) ds r) : r.current.domain = Definition.signatures ds :=
  h.current.trans (Finset.empty_union _)

theorem Tallied.find?_current {t : MatchingTree} {previous : Keyed Signature SlotKey}
    (h : Tallied (start t previous) ds r) (hsound : r.Sound uid) {s : Signature} {k : SlotKey}
    (hk : previous.find? s = some k) (hs : s ∈ Definition.signatures ds) :
    r.current.find? s = some k := by
  rw [← h.current_start, Keyed.mem_domain] at hs
  obtain ⟨k', hk'⟩ := hs
  have hkey := h.kept s k (by rw [keyOf?, start, hk]; rfl)
  rw [(hsound.find?_of_current hk').2] at hkey
  cases hkey
  exact hk'

/-- What is removed at the end are the definitions that have not been supplied again. -/
theorem Sound.removed_finish (h : r.Sound uid) :
    r.finish.summary.removed = r.previous.domain.card := by
  have hfind (s : Signature) (k : SlotKey) (hk : r.previous.find? s = some k) :
      r.keyOf? s = some k := by
    rw [keyOf?, hk]
    rfl
  have hcount : (removeAll r.tree (r.previous.map (·.2))).1 = r.previous.length := by
    rw [fst_removeAll_of_live r.tree (h.tracks.nodup_keys h.previous hfind), List.length_map]
    intro k hk
    obtain ⟨s, -, hkey⟩ := h.mem_previous.1 hk
    obtain ⟨d, hd, -, -⟩ := (h.tracks s k).1 hkey
    exact ⟨d, hd⟩
  rw [h.previous.card_domain]
  exact hcount

end

end Refresh

namespace Linker

/-- The update of the source from `l` is a minimal one and accounts for itself. -/
structure Diff (s : Source) (l : Linker) (result : Outcome Summary Diagnostic × Linker) :
    Prop where
  signatures : (result.2.keysOf s.uid).domain = Definition.signatures s.definitions
  kept : ∀ sig k, (l.keysOf s.uid).find? sig = some k →
    sig ∈ Definition.signatures s.definitions → (result.2.keysOf s.uid).find? sig = some k
  latest : ∀ sig k, (result.2.keysOf s.uid).find? sig = some k →
    result.2.tree.get? k = Definition.lastAcceptable? s.definitions sig
  counts : ∃ summary, result.1.output = some summary ∧
    summary.added = (Definition.signatures s.definitions \ (l.keysOf s.uid).domain).card ∧
    summary.removed = ((l.keysOf s.uid).domain \ Definition.signatures s.definitions).card ∧
    summary.rejected = s.definitions.countP (!·.isAcceptable) ∧
    summary.added + summary.updated = s.definitions.countP (·.isAcceptable)

/-- Nothing in the tree and none of its keys has changed. -/
structure Unchanged (l l' : Linker) : Prop where
  keys : ∀ uid sig, (l'.keysOf uid).find? sig = (l.keysOf uid).find? sig
  definitions : ∀ k, l'.tree.get? k = l.tree.get? k
  nodeCount : l'.tree.nodeCount = l.tree.nodeCount
  definitionCount : l'.tree.definitionCount = l.tree.definitionCount

section
variable {l : Linker} {s : Source}

theorem Consistent.diff_refresh (h : l.Consistent) (hs : s.Genuine) :
    Diff s l (l.refresh s) := by
  have hstart := h.sound_start s.uid
  have htallied : Refresh.Tallied (Refresh.start l.tree (l.keysOf s.uid)) s.definitions
      (s.definitions.foldl (Refresh.supply s.name) (Refresh.start l.tree (l.keysOf s.uid))) :=
    hstart.tallied_foldl hs
  have hsupplied : Refresh.Supplied s.uid s.name (Refresh.start l.tree (l.keysOf s.uid))
      s.definitions _ := hstart.foldl hs
  have hkeys := (keysOf_refresh l s s.uid).trans (if_pos rfl)
  refine ⟨?_, fun sig k hk hsig => ?_, fun sig k hk => ?_, _, rfl, ?_, ?_, ?_, ?_⟩
  · rw [hkeys]
    exact htallied.current_start
  · rw [hkeys]
    exact htallied.find?_current hsupplied.sound hk hsig
  · rw [hkeys] at hk
    rw [← Definition.latest?_eq_lastAcceptable? fun d hd => (hs d hd).2]
    exact hsupplied.finish.get?_eq_latest? hk
  · have hknown : (Refresh.start l.tree (l.keysOf s.uid)).known = (l.keysOf s.uid).domain :=
      Finset.union_empty _
    rw [← hknown]
    exact htallied.added.trans (Nat.zero_add _)
  · have hremoved := hsupplied.sound.removed_finish
    rw [htallied.previous] at hremoved
    exact hremoved
  · refine (hstart.bound.report_run s).2.trans (List.countP_congr fun d hd => ?_)
    rw [Bool.not_eq_true', Bool.eq_false_iff, Ne, Definition.isAcceptable_iff (hs d hd).2,
      Option.isSome_iff_ne_none]
  · exact htallied.taken.trans (Nat.zero_add _)

/-! ## Updating once more -/

theorem Consistent.get?_eq_some_of_latest (h : l.Consistent)
    (hlatest : ∀ sig k, (l.keysOf s.uid).find? sig = some k →
      l.tree.get? k = Definition.lastAcceptable? s.definitions sig)
    {d : Definition} (hd : d.source = s.uid) {k : SlotKey} :
    l.tree.get? k = some d ↔ (l.keysOf s.uid).find? d.signature = some k ∧
      Definition.lastAcceptable? s.definitions d.signature = some d := by
  constructor
  · intro hk
    have hkey := (h.tracks_keysOf s.uid d.signature k).2 ⟨d, hk, hd, rfl⟩
    exact ⟨hkey, (hlatest _ k hkey).symm.trans hk⟩
  · rintro ⟨hkey, hlast⟩
    exact (hlatest _ k hkey).trans hlast

/-- A source that has what it supplies is not changed by an update. -/
theorem Consistent.unchanged_refresh (h : l.Consistent) (hs : s.Genuine)
    (hdomain : (l.keysOf s.uid).domain = Definition.signatures s.definitions)
    (hlatest : ∀ sig k, (l.keysOf s.uid).find? sig = some k →
      l.tree.get? k = Definition.lastAcceptable? s.definitions sig) :
    Unchanged l (l.refresh s).2 := by
  have h' := h.refresh hs
  have hdiff := h.diff_refresh hs
  have hkeys (uid : String) (sig : Signature) :
      ((l.refresh s).2.keysOf uid).find? sig = (l.keysOf uid).find? sig := by
    by_cases huid : s.uid = uid
    · subst huid
      rcases hk : (l.keysOf s.uid).find? sig with _ | k
      · rw [← Keyed.notMem_domain, hdiff.signatures, ← hdomain]
        exact Keyed.notMem_domain.2 hk
      · refine hdiff.kept sig k hk ?_
        rw [← hdomain]
        exact Keyed.mem_domain.2 ⟨k, hk⟩
    · rw [keysOf_refresh, if_neg huid]
  have hdefinitions (k : SlotKey) : (l.refresh s).2.tree.get? k = l.tree.get? k := by
    refine Option.ext fun d => ?_
    by_cases hd : d.source = s.uid
    · rw [h'.get?_eq_some_of_latest hdiff.latest hd, h.get?_eq_some_of_latest hlatest hd, hkeys]
    · obtain ⟨r, hfinished, hrefresh⟩ := h.finished_refresh hs
      rw [hrefresh]
      exact hfinished.others k d hd
  have hlive (d : Definition) : d ∈ (l.refresh s).2.tree.live ↔ d ∈ l.tree.live := by
    simp only [MatchingTree.mem_live, hdefinitions]
  exact ⟨hkeys, hdefinitions, h'.tree.wellFormed.nodeCount_congr h.tree.wellFormed hlive,
    h'.definitionCount_congr h hlive⟩

theorem update_eq_refresh (l : Linker) (hkind : s.kind.isUpdatable = true) :
    l.update s = l.refresh s := by
  rw [Linker.update, if_pos hkind]

end

/-- Updating a source is a minimal diff with exact accounts, and updating it once more with the same
definitions does nothing. -/
theorem ReachableWith.update_diff {l : Linker} (hl : l.ReachableWith Source.Genuine) {s : Source}
    (hs : s.Genuine) (hkind : s.kind.isUpdatable = true) :
    Diff s l (l.update s) ∧
      (∃ summary, ((l.update s).2.update s).1.output = some summary ∧
        summary.added = 0 ∧ summary.removed = 0) ∧
      Unchanged (l.update s).2 ((l.update s).2.update s).2 := by
  simp only [update_eq_refresh _ hkind]
  have h := hl.consistent
  have hdiff := h.diff_refresh hs
  refine ⟨hdiff, ?_, (h.refresh hs).unchanged_refresh hs hdiff.signatures hdiff.latest⟩
  obtain ⟨summary, houtput, hadded, hremoved, -⟩ := ((h.refresh hs).diff_refresh hs).counts
  rw [hdiff.signatures, Finset.sdiff_self, Finset.card_empty] at hadded hremoved
  exact ⟨summary, houtput, hadded, hremoved⟩

/-- A file that is updated: one step stays and is declared twice, another one is gone, one is new
and declared three times, and two are refused. -/
theorem update_diff_counter :
    let declared (type : StepType) (declaration : String) (table : TableRule) : DeclaredStep :=
      ⟨type, declaration, ⟨1, 1⟩, table, none, none, []⟩
    let before : Source := .ofFile ⟨"counter", none,
      [declared (.phase .action) "I clear it" .optional,
        declared (.phase .action) "I add {n:int}" .optional]⟩
    let after : Source := .ofFile ⟨"counter", none,
      [declared (.phase .action) "I undo" .optional, declared .conjunction "I undo" .optional,
        declared (.phase .action) "I add {n:int}" .required,
        declared (.phase .action) "I undo" .required, declared (.phase .action) "I \x7b" .optional,
        declared (.phase .action) "I add {n:int}" .notSupported,
        declared (.phase .action) "I undo" .notSupported]⟩
    let l := ((new .standard).register before).2
    l.ReachableWith Source.Genuine ∧ after.Genuine ∧ after.kind.isUpdatable = true ∧
      Diff after l (l.update after) ∧ (l.update after).1.output = some ⟨1, 4, 1, 2⟩ ∧
      Unchanged (l.update after).2 ((l.update after).2.update after).2 := by
  intro declared before after l
  have hbefore : before.Shipped := .ofFile _ (by simp [declared])
  have hafter : after.Shipped := .ofFile _ (by simp [declared])
  have hl : l.ReachableWith Source.Genuine := .register (.new .standard) hbefore.genuine
  obtain ⟨hdiff, -, hunchanged⟩ := hl.update_diff hafter.genuine rfl
  exact ⟨hl, hafter.genuine, rfl, hdiff, by decide +kernel, hunchanged⟩

end Linker

end StepLinker
