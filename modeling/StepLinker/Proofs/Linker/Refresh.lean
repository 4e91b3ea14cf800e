import StepLinker.Proofs.Keyed
import StepLinker.Proofs.Tree.Contents
import StepLinker.Refresh

/-!
# What a refresh does

A refresh takes in the definitions of a source one by one. Through all of it the two lists of keys,
taken together, name the definitions of the source in the tree, each by its signature
(`Refresh.Sound`). A definition that is refused is only reported (`Bound.supply_of_refusal`), any
other one goes under the key of its signature or under a new one (`Sound.supply_of_accepted`).
`Supplied` says what has changed after some definitions: those of other sources have not, the source
has the last acceptable definition under each signature (`latest?`), and the refused ones are
reported in order. It holds of one definition (`Sound.supply`), joins up (`Supplied.cons`), and so
holds of all of them (`Sound.foldl`). What is left when the definitions that were not supplied again
are removed is `Finished`.
-/

namespace StepLinker

/-- The keys are those of the definitions of the source, by their signatures. -/
def MatchingTree.Tracks (t : MatchingTree) (uid : String) (key? : Signature → Option SlotKey) :
    Prop :=
  ∀ s k, key? s = some k ↔ ∃ d, t.get? k = some d ∧ d.source = uid ∧ d.signature = s

/-- A definition that goes under its key, or under one that was not in use, is tracked there. -/
theorem MatchingTree.Tracks.put {t t' : MatchingTree} {uid : String}
    {key? : Signature → Option SlotKey} {k : SlotKey} {d : Definition} (h : t.Tracks uid key?)
    (hd : d.source = uid) (hkey : ∀ k', key? d.signature = some k' → k' = k)
    (hold : ∀ old, t.get? k = some old → old.source = uid ∧ old.signature = d.signature)
    (hget : ∀ k', t'.get? k' = if k' = k then some d else t.get? k') :
    t'.Tracks uid fun s => if d.signature = s then some k else key? s := by
  intro s k'
  rw [hget]
  by_cases hs : d.signature = s
  · simp only [if_pos hs]
    constructor
    · intro hk
      cases hk
      exact ⟨d, if_pos rfl, hd, hs⟩
    · rintro ⟨d', hd', hsource, hs'⟩
      by_cases hk : k' = k
      · rw [hk]
      · rw [if_neg hk] at hd'
        exact absurd (hkey k' ((h _ _).2 ⟨d', hd', hsource, hs'.trans hs.symm⟩)) hk
  · simp only [if_neg hs]
    rw [h s k']
    by_cases hk : k' = k
    · subst hk
      rw [if_pos rfl]
      constructor
      · rintro ⟨d', hd', -, hs'⟩
        exact absurd ((hold d' hd').2.symm.trans hs') hs
      · rintro ⟨d', hd', -, hs'⟩
        cases hd'
        exact absurd hs' hs
    · rw [if_neg hk]

theorem MatchingTree.Tracks.nodup_keys {t : MatchingTree} {uid : String}
    {key? : Signature → Option SlotKey} {m : Keyed Signature SlotKey} (h : t.Tracks uid key?)
    (hm : m.Distinct) (hkey : ∀ s k, m.find? s = some k → key? s = some k) :
    (m.map (·.2)).Nodup := by
  refine hm.nodup.map_on ?_
  rintro ⟨s, k⟩ hk ⟨s', k'⟩ hk' (rfl : k = k')
  obtain ⟨d, hd, -, rfl⟩ := (h s k).1 (hkey s k (hm.find?_eq_some.2 hk))
  obtain ⟨d', hd', -, rfl⟩ := (h s' k).1 (hkey s' k (hm.find?_eq_some.2 hk'))
  rw [hd] at hd'
  cases hd'
  rfl

/-- The last of the definitions with the signature that is not refused. -/
def Definition.latest? (ds : List Definition) (s : Signature) : Option Definition :=
  ds.reverse.find? fun d => d.refusal?.isNone && d.signature = s

def Definition.report? (name : String) (d : Definition) : Option Diagnostic :=
  d.refusal?.map (Refresh.rejection name d)

theorem Definition.latest?_cons (d : Definition) (ds : List Definition) (s : Signature) :
    latest? (d :: ds) s = (latest? ds s).or
      (if d.refusal? = none ∧ d.signature = s then some d else none) := by
  unfold latest?
  rw [List.reverse_cons, List.find?_append, List.find?_singleton]
  simp

namespace Refresh

structure Sound (uid : String) (r : Refresh) : Prop where
  tree : r.tree.Reachable
  previous : r.previous.Distinct
  current : r.current.Distinct
  apart : ∀ s, r.previous.find? s = none ∨ r.current.find? s = none
  tracks : r.tree.Tracks uid r.keyOf?

def supplied? (r : Refresh) (s : Signature) : Option Definition :=
  (r.current.find? s).bind r.tree.get?

/-- The definitions `ds` of the source, shown as `name`, lead from `r` to `r'`. -/
structure Supplied (uid name : String) (r : Refresh) (ds : List Definition) (r' : Refresh) :
    Prop where
  sound : r'.Sound uid
  others : ∀ k d, d.source ≠ uid → (r'.tree.get? k = some d ↔ r.tree.get? k = some d)
  supplied : ∀ s, r'.supplied? s = (Definition.latest? ds s).or (r.supplied? s)
  diagnostics : r'.diagnostics = r.diagnostics ++ ds.filterMap (Definition.report? name)

section
variable {uid name : String} {r r' : Refresh} {d : Definition} {k : SlotKey}

theorem Supplied.refl (h : r.Sound uid) : Supplied uid name r [] r where
  sound := h
  others _ _ _ := Iff.rfl
  supplied _ := rfl
  diagnostics := by simp

theorem Supplied.cons {ds : List Definition} {r'' : Refresh} (h : Supplied uid name r [d] r')
    (h' : Supplied uid name r' ds r'') : Supplied uid name r (d :: ds) r'' where
  sound := h'.sound
  others k d hd := (h'.others k d hd).trans (h.others k d hd)
  supplied s := by
    rw [h'.supplied, h.supplied, Definition.latest?_cons d [], Definition.latest?_cons d ds]
    simp [Definition.latest?, Option.or_assoc]
  diagnostics := by
    rw [h'.diagnostics, h.diagnostics, List.append_assoc, ← List.filterMap_append]
    rfl

theorem Sound.find?_of_current (h : r.Sound uid) {s : Signature} (hk : r.current.find? s = some k) :
    r.previous.find? s = none ∧ r.keyOf? s = some k := by
  rcases h.apart s with hnone | hnone
  · exact ⟨hnone, by rw [keyOf?, hnone, hk]; rfl⟩
  · rw [hk] at hnone
    cases hnone

/-! ## One definition -/

/-- No conjunction is known under a key. -/
def Bound (r : Refresh) : Prop :=
  ∀ s, s.type = .conjunction → r.keyOf? s = none

/-- The refresh after the definition has gone under the key in the tree. -/
def keep (r : Refresh) (d : Definition) (k : SlotKey) (tree : MatchingTree) (summary : Summary) :
    Refresh :=
  ⟨tree, r.previous.erase d.signature, r.current.insert d.signature k, summary, r.diagnostics⟩

theorem find?_previous_keep (r : Refresh) (d : Definition) (k : SlotKey) (tree : MatchingTree)
    (summary : Summary) (s : Signature) : (r.keep d k tree summary).previous.find? s =
      if d.signature = s then none else r.previous.find? s :=
  Keyed.find?_erase _ _ _

theorem find?_current_keep (r : Refresh) (d : Definition) (k : SlotKey) (tree : MatchingTree)
    (summary : Summary) (s : Signature) : (r.keep d k tree summary).current.find? s =
      if d.signature = s then some k else r.current.find? s :=
  Keyed.find?_insert _ _ _ _

theorem keyOf?_keep (r : Refresh) (d : Definition) (k : SlotKey) (tree : MatchingTree)
    (summary : Summary) (s : Signature) :
    (r.keep d k tree summary).keyOf? s = if d.signature = s then some k else r.keyOf? s := by
  rw [keyOf?, find?_previous_keep, find?_current_keep]
  split <;> rfl

theorem Sound.bound (h : r.Sound uid) : r.Bound := by
  intro s htype
  refine Option.eq_none_iff_forall_ne_some.2 fun k hk => ?_
  obtain ⟨d, hd, -, rfl⟩ := (h.tracks s k).1 hk
  exact h.tree.type_ne_conjunction hd htype

theorem update?_of_keyOf? (hk : r.keyOf? d.signature = none) : r.update? d = none := by
  rw [Refresh.update?, hk]

/-- A definition that is refused is only reported, whether its declaration or its type is at
fault. -/
theorem Bound.supply_of_refusal (h : r.Bound) {error : DefinitionError}
    (hd : d.refusal? = some error) : supply name r d = r.reject name d error := by
  unfold supply
  rcases hp : d.pattern with parseError | p
  · unfold Definition.refusal? at hd
    rw [hp] at hd
    cases hd
    rfl
  · rw [Definition.refusal?_of_ok hp] at hd
    split at hd
    · next htype =>
      cases hd
      have hk : r.keyOf? d.signature = none := h d.signature htype
      have hfind : r.previous.find? d.signature = none := (Option.or_eq_none_iff.1 hk).1
      simp only [update?_of_keyOf? hk, Option.getD_none, add, Keyed.erase_eq_self hfind,
        MatchingTree.addOrUpdate_conjunction htype]
    · cases hd

theorem Supplied.reject (h : r.Sound uid) {error : DefinitionError}
    (hd : d.refusal? = some error) : Supplied uid name r [d] (r.reject name d error) where
  sound := ⟨h.tree, h.previous, h.current, h.apart, h.tracks⟩
  others _ _ _ := Iff.rfl
  supplied s := by
    rw [Definition.latest?_cons, hd]
    simp only [reduceCtorEq, false_and, if_false, Option.or_none]
    rfl
  diagnostics := by
    have hreport : d.report? name = some (rejection name d error) := by
      rw [Definition.report?, hd]
      rfl
    rw [List.filterMap_cons_some hreport]
    rfl

/-- A definition that goes under its key, or under one that was not in use, is the latest with its
signature. -/
theorem Supplied.take {tree : MatchingTree} (h : r.Sound uid) (hd : d.source = uid)
    (haccepted : d.refusal? = none) (hkey : ∀ k', r.keyOf? d.signature = some k' → k' = k)
    (hold : ∀ old, r.tree.get? k = some old → old.source = uid ∧ old.signature = d.signature)
    (htree : tree.Reachable)
    (hget : ∀ k', tree.get? k' = if k' = k then some d else r.tree.get? k') (summary : Summary) :
    Supplied uid name r [d] (r.keep d k tree summary) := by
  refine ⟨⟨htree, h.previous.erase _, h.current.insert _ _, fun s => ?_, ?_⟩, fun k' d' hd' => ?_,
    fun s => ?_, ?_⟩
  · rw [find?_previous_keep, find?_current_keep]
    by_cases hs : d.signature = s
    · exact .inl (if_pos hs)
    · rw [if_neg hs, if_neg hs]
      exact h.apart s
  · have hkeyOf : (r.keep d k tree summary).keyOf? =
        fun s => if d.signature = s then some k else r.keyOf? s := by
      funext s
      exact keyOf?_keep r d k tree summary s
    rw [hkeyOf]
    exact h.tracks.put hd hkey hold hget
  · show tree.get? k' = some d' ↔ _
    rw [hget]
    by_cases hk : k' = k
    · subst hk
      rw [if_pos rfl]
      constructor
      · intro hd''
        cases hd''
        exact absurd hd hd'
      · intro hold'
        exact absurd (hold d' hold').1 hd'
    · rw [if_neg hk]
  · show Option.bind _ tree.get? = _
    rw [find?_current_keep, Definition.latest?_cons, haccepted]
    by_cases hs : d.signature = s
    · simp [hs, hget, Definition.latest?]
    · simp only [hs, and_false, if_false, supplied?]
      cases hk : r.current.find? s with
      | none => rfl
      | some k' =>
        -- what was supplied before stands elsewhere, as its signature is another one
        have hne : k' ≠ k := by
          rintro rfl
          obtain ⟨old, hold', -, hs'⟩ := (h.tracks s k').1 (h.find?_of_current hk).2
          exact hs ((hold old hold').2.symm.trans hs')
        simp only [Option.bind_some, hget, if_neg hne]
        rfl
  · have hreport : d.report? name = none := by
      rw [Definition.report?, haccepted]
      rfl
    rw [List.filterMap_cons_none hreport, List.filterMap_nil, List.append_nil]
    rfl

/-- A definition that is not refused goes under the key of its signature, or under one that was not
in use if the signature is new. -/
theorem Sound.supply_of_accepted (h : r.Sound uid) (name : String) (hd : d.source = uid)
    (hcompiled : d.Compiled) (haccepted : d.refusal? = none) :
    ∃ k tree, tree.Reachable ∧
      (∀ k', tree.get? k' = if k' = k then some d else r.tree.get? k') ∧
      ((r.keyOf? d.signature = some k ∧ supply name r d =
          r.keep d k tree { r.summary with updated := r.summary.updated + 1 }) ∨
        (r.keyOf? d.signature = none ∧ r.tree.get? k = none ∧ supply name r d =
          r.keep d k tree { r.summary with added := r.summary.added + 1 })) := by
  obtain ⟨p, hp⟩ := Definition.pattern_of_accepted haccepted
  simp only [supply, hp]
  rcases hk : r.keyOf? d.signature with _ | k
  · have hnew : ∀ k old, r.tree.get? k = some old → old.source = d.source →
        old.signature ≠ d.signature := by
      intro k old hold hsource hs
      have hkey := (h.tracks d.signature k).2 ⟨old, hold, hsource.trans hd, hs⟩
      rw [hk] at hkey
      cases hkey
    obtain ⟨k, tree, hadd, htree, hfree, hget⟩ :=
      h.tree.addOrUpdate_new hcompiled haccepted hnew
    refine ⟨k, tree, htree, hget, .inr ⟨rfl, hfree, ?_⟩⟩
    simp only [update?_of_keyOf? hk, Option.getD_none, add, hadd]
    rfl
  · obtain ⟨old, hold, -, hs⟩ := (h.tracks _ _).1 hk
    obtain ⟨tree, hreplace, hget⟩ := MatchingTree.replace_of_get? hold d
    refine ⟨k, tree, h.tree.replace hold hcompiled hs hreplace, hget, .inl ⟨rfl, ?_⟩⟩
    simp only [update?, hk, hreplace, Option.getD_some]
    rfl

theorem Sound.supply (h : r.Sound uid) (hd : d.source = uid) (hcompiled : d.Compiled) :
    Supplied uid name r [d] (supply name r d) := by
  rcases haccepted : d.refusal? with _ | error
  · obtain ⟨k, tree, htree, hget, ⟨hk, hsupply⟩ | ⟨hk, hfree, hsupply⟩⟩ :=
      h.supply_of_accepted name hd hcompiled haccepted
    · obtain ⟨old, hold, hsource, hs⟩ := (h.tracks _ _).1 hk
      rw [hsupply]
      refine .take h hd haccepted (fun k' hk' => ?_) (fun old' hold' => ?_) htree hget _
      · rw [hk] at hk'
        exact (Option.some.inj hk').symm
      · rw [hold] at hold'
        cases hold'
        exact ⟨hsource, hs⟩
    · rw [hsupply]
      refine .take h hd haccepted (fun k' hk' => ?_) (fun old hold => ?_) htree hget _
      · rw [hk] at hk'
        cases hk'
      · rw [hfree] at hold
        cases hold
  · rw [h.bound.supply_of_refusal haccepted]
    exact .reject h haccepted

/-! ## The whole refresh -/

theorem Sound.foldl (h : r.Sound uid) {ds : List Definition}
    (hds : ∀ d ∈ ds, d.source = uid ∧ d.Compiled) :
    Supplied uid name r ds (ds.foldl (Refresh.supply name) r) := by
  induction ds generalizing r with
  | nil => exact .refl h
  | cons d ds ih =>
    obtain ⟨⟨hd, hcompiled⟩, hds⟩ := List.forall_mem_cons.1 hds
    have hstep : Supplied uid name r [d] (Refresh.supply name r d) := h.supply hd hcompiled
    exact hstep.cons (ih hstep.sound hds)

end

/-- Removing takes out what stands under the keys and nothing else. -/
theorem get?_removeAll (t : MatchingTree) (ks : List SlotKey) (k : SlotKey) :
    (removeAll t ks).2.get? k = if k ∈ ks then none else t.get? k := by
  induction ks generalizing t with
  | nil => rfl
  | cons k' ks ih =>
    rcases hd : t.get? k' with _ | d
    · rw [removeAll, MatchingTree.remove_eq_none.2 hd, ih]
      by_cases hk : k = k'
      · subst hk
        simp [hd]
      · simp [hk]
    · obtain ⟨t', hremove, hget⟩ := MatchingTree.remove_of_get? hd
      rw [removeAll, hremove]
      simp only [ih, hget]
      by_cases hk : k = k'
      · simp [hk]
      · simp [hk]

theorem reachable_removeAll {t : MatchingTree} (ht : t.Reachable) (ks : List SlotKey) :
    (removeAll t ks).2.Reachable := by
  induction ks generalizing t with
  | nil => exact ht
  | cons k ks ih => exact ih (.step (.remove k) ht trivial)

/-- Each key that is in use counts, however often it comes. -/
theorem fst_removeAll (t : MatchingTree) (ks : List SlotKey) :
    (removeAll t ks).1 = (ks.toFinset.filter fun k => (t.get? k).isSome).card := by
  induction ks generalizing t with
  | nil => rfl
  | cons k ks ih =>
    rw [List.toFinset_cons, Finset.filter_insert]
    rcases hd : t.get? k with _ | d
    · rw [removeAll, MatchingTree.remove_eq_none.2 hd]
      exact ih t
    · obtain ⟨t', hremove, hget⟩ := MatchingTree.remove_of_get? hd
      have hrest : (ks.toFinset.filter fun k' => (t'.get? k').isSome) =
          (ks.toFinset.filter fun k' => (t.get? k').isSome).erase k := by
        ext k'
        by_cases hk : k' = k
        · simp [hk, hget]
        · simp [hk, hget]
      rw [removeAll, hremove, if_pos Option.isSome_some,
        ← Finset.card_erase_add_one (Finset.mem_insert_self k _),
        Finset.erase_insert_eq_erase, ← hrest, ← ih t']
      rfl

theorem fst_removeAll_of_live (t : MatchingTree) {ks : List SlotKey} (hnodup : ks.Nodup)
    (hlive : ∀ k ∈ ks, ∃ d, t.get? k = some d) : (removeAll t ks).1 = ks.length := by
  have hall : (ks.toFinset.filter fun k => (t.get? k).isSome) = ks.toFinset := by
    refine Finset.filter_true_of_mem fun k hk => ?_
    obtain ⟨d, hd⟩ := hlive k (List.mem_toFinset.1 hk)
    rw [hd]
    rfl
  rw [fst_removeAll, hall, List.toFinset_card_of_nodup hnodup]

/-- In whichever order the keys come, as many definitions are removed and the same ones are left. -/
theorem removeAll_perm (t : MatchingTree) {ks ks' : List SlotKey} (h : ks.Perm ks') :
    (removeAll t ks').1 = (removeAll t ks).1 ∧
      ∀ k, (removeAll t ks').2.get? k = (removeAll t ks).2.get? k := by
  refine ⟨?_, fun k => ?_⟩
  · rw [fst_removeAll, fst_removeAll, List.toFinset_eq_of_perm _ _ h]
  · rw [get?_removeAll, get?_removeAll]
    simp only [h.mem_iff]

theorem Sound.mem_previous {uid : String} {r : Refresh} (h : r.Sound uid) {k : SlotKey} :
    k ∈ r.previous.map (·.2) ↔ ∃ s, r.previous.find? s = some k ∧ r.keyOf? s = some k := by
  constructor
  · intro hk
    obtain ⟨⟨s, k'⟩, hmem, rfl⟩ := List.mem_map.1 hk
    have hfind := h.previous.find?_eq_some.2 hmem
    exact ⟨s, hfind, by rw [keyOf?, hfind]; rfl⟩
  · rintro ⟨s, hfind, -⟩
    exact List.mem_map.2 ⟨_, Keyed.mem_of_find? hfind, rfl⟩

theorem Sound.not_mem_previous {uid : String} {r : Refresh} (h : r.Sound uid) {s : Signature}
    {k : SlotKey} (hk : r.current.find? s = some k) : k ∉ r.previous.map (·.2) := by
  obtain ⟨hnone, hkey⟩ := h.find?_of_current hk
  obtain ⟨d, hd, -, hs⟩ := (h.tracks s k).1 hkey
  rw [h.mem_previous]
  rintro ⟨s', hfind, hkey'⟩
  obtain ⟨d', hd', -, hs'⟩ := (h.tracks s' k).1 hkey'
  rw [hd] at hd'
  cases hd'
  rw [← hs', hs, hnone] at hfind
  cases hfind

theorem Sound.current_of_stays {uid : String} {r : Refresh} (h : r.Sound uid) {k : SlotKey}
    {d : Definition} (hlive : r.tree.get? k = some d) (hd : d.source = uid)
    (hstays : k ∉ r.previous.map (·.2)) : r.current.find? d.signature = some k := by
  have hkey := (h.tracks d.signature k).2 ⟨d, hlive, hd, rfl⟩
  rcases Option.or_eq_some_iff.1 hkey with hfind | ⟨-, hfind⟩
  · exact absurd (h.mem_previous.2 ⟨_, hfind, hkey⟩) hstays
  · exact hfind

theorem get?_finish (r : Refresh) (k : SlotKey) : r.finish.tree.get? k =
    if k ∈ r.previous.map (·.2) then none else r.tree.get? k :=
  get?_removeAll _ _ k

/-- What comes of a refresh of the tree with the definitions `ds` of the source. -/
structure Finished (uid name : String) (t : MatchingTree) (ds : List Definition) (r : Refresh) :
    Prop where
  tree : r.tree.Reachable
  current : r.current.Distinct
  tracks : r.tree.Tracks uid r.current.find?
  others : ∀ k d, d.source ≠ uid → (r.tree.get? k = some d ↔ t.get? k = some d)
  latest : ∀ d, d.source = uid →
    ((∃ k, r.tree.get? k = some d) ↔ Definition.latest? ds d.signature = some d)
  diagnostics : r.diagnostics = ds.filterMap (Definition.report? name)

/-- Under each key of the source stands the last that it supplied with the signature. -/
theorem Finished.get?_eq_latest? {uid name : String} {t : MatchingTree} {ds : List Definition}
    {r : Refresh} (h : Finished uid name t ds r) {s : Signature} {k : SlotKey}
    (hk : r.current.find? s = some k) : r.tree.get? k = Definition.latest? ds s := by
  obtain ⟨d, hd, hsource, rfl⟩ := (h.tracks s k).1 hk
  rw [(h.latest d hsource).1 ⟨k, hd⟩]
  exact hd

theorem Sound.start {uid : String} {t : MatchingTree} (ht : t.Reachable)
    {previous : Keyed Signature SlotKey} (hdistinct : previous.Distinct)
    (htracks : t.Tracks uid previous.find?) : (start t previous).Sound uid where
  tree := ht
  previous := hdistinct
  current := List.nodup_nil
  apart _ := .inr rfl
  tracks s k := by
    have hkeyOf : (Refresh.start t previous).keyOf? s = previous.find? s := Option.or_none
    rw [hkeyOf]
    exact htracks s k

theorem Sound.tracks_finish {uid : String} {r : Refresh} (h : r.Sound uid) :
    r.finish.tree.Tracks uid r.current.find? := by
  intro s k
  rw [get?_finish]
  constructor
  · intro hk
    rw [if_neg (h.not_mem_previous hk)]
    exact (h.tracks s k).1 (h.find?_of_current hk).2
  · rintro ⟨d, hd, hsource, hs⟩
    split at hd
    · cases hd
    · next hstays =>
      rw [← hs]
      exact h.current_of_stays hd hsource hstays

theorem Sound.get?_finish_of_ne {uid : String} {r : Refresh} (h : r.Sound uid) (k : SlotKey)
    {d : Definition} (hd : d.source ≠ uid) :
    r.finish.tree.get? k = some d ↔ r.tree.get? k = some d := by
  rw [get?_finish]
  split
  · next hgone =>
    obtain ⟨s, -, hkey⟩ := h.mem_previous.1 hgone
    obtain ⟨d', hd', hsource, -⟩ := (h.tracks s k).1 hkey
    constructor
    · intro hnone
      cases hnone
    · intro hlive
      rw [hd'] at hlive
      cases hlive
      exact absurd hsource hd
  · exact Iff.rfl

theorem Supplied.finish {uid name : String} {t : MatchingTree}
    {previous : Keyed Signature SlotKey} {ds : List Definition} {r : Refresh}
    (h : Supplied uid name (start t previous) ds r) : Finished uid name t ds r.finish where
  tree := reachable_removeAll h.sound.tree _
  current := h.sound.current
  tracks := h.sound.tracks_finish
  others k d hd := (h.sound.get?_finish_of_ne k hd).trans (h.others k d hd)
  latest d hd := by
    have hsupplied : r.supplied? d.signature = Definition.latest? ds d.signature :=
      (h.supplied d.signature).trans Option.or_none
    rw [← hsupplied, supplied?, Option.bind_eq_some_iff]
    constructor
    · rintro ⟨k, hk⟩
      rw [get?_finish] at hk
      split at hk
      · cases hk
      · next hstays => exact ⟨k, h.sound.current_of_stays hk hd hstays, hk⟩
    · rintro ⟨k, hk, hlive⟩
      refine ⟨k, ?_⟩
      rw [get?_finish, if_neg (h.sound.not_mem_previous hk)]
      exact hlive
  diagnostics := h.diagnostics

end Refresh

end StepLinker
