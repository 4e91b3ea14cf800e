import StepLinker.Proofs.Tree.Contents

/-!
# One key for each definition

Two definitions of one source and one type are the same, by `isSame`, if and only if they have the
same `Identity`. An addition looks for another version of its definition and takes its place, so it
keeps a tree in which no identity stands under two keys (`Distinct`). A replacement looks at its key
alone: it keeps such a tree exactly if no other key holds a version of what comes in
(`Distinct.replace_iff`). That type, declaration and source stay the same is not enough for it, as
handlers and components are part of an identity too. And a tree may be `Distinct` and yet hold two
definitions that are the same: `isSame` does not look at the types of generated definitions, and
those of different types stand below different roots.
-/

namespace StepLinker

/-- What the versions of a definition have in common, apart from source and signature. -/
inductive Origin where
  | file
  | native (handler : String)
  | interaction (components : List String)
  deriving DecidableEq, Repr

def DefinitionKind.origin : DefinitionKind → Origin
  | file _ _ => .file
  | native handler _ => .native handler
  | interaction components _ => .interaction components

structure Identity where
  source : String
  signature : Signature
  origin : Origin
  deriving DecidableEq, Repr

namespace Definition

def identity (d : Definition) : Identity :=
  ⟨d.source, d.signature, d.kind.origin⟩

def IsGenerated (d : Definition) : Prop :=
  ∃ components values, d.kind = .interaction components values

theorem identity_eq_iff {d d' : Definition} : d.identity = d'.identity ↔
    d.source = d'.source ∧ d.type = d'.type ∧ d.isSame d' = true := by
  simp only [identity, signature, Identity.mk.injEq, Signature.mk.injEq]
  cases hkind : d.kind <;> cases hkind' : d'.kind <;>
    simp [isSame, hkind, hkind', DefinitionKind.origin] <;> tauto

theorem type_eq_or_isGenerated {d d' : Definition} (h : d.isSame d' = true) :
    d.type = d'.type ∨ d.IsGenerated ∧ d'.IsGenerated := by
  unfold isSame at h
  split at h
  · next hkind hkind' => simp_all
  · next hkind hkind' => simp_all
  · next hkind hkind' => exact .inr ⟨⟨_, _, hkind⟩, ⟨_, _, hkind'⟩⟩
  · cases h

end Definition

namespace MatchingTree

/-- No two keys hold versions of one definition. -/
def Distinct (t : MatchingTree) : Prop :=
  ∀ k k' d d', t.get? k = some d → t.get? k' = some d' → d.identity = d'.identity → k = k'

section
variable {t t' : MatchingTree} {k : SlotKey} {d old : Definition}

theorem distinct_empty : empty.Distinct := by
  intro k _ d _ hd
  rw [get?_empty] at hd
  cases hd

theorem Distinct.of_subset (h : t.Distinct)
    (hget : ∀ k d, t'.get? k = some d → t.get? k = some d) : t'.Distinct :=
  fun k k' d d' hd hd' => h k k' d d' (hget k d hd) (hget k' d' hd')

/-- A definition that goes under a key keeps the tree distinct exactly if no other key holds a
version of it. -/
theorem Distinct.put_iff (h : t.Distinct)
    (hget : ∀ k', t'.get? k' = if k' = k then some d else t.get? k') :
    t'.Distinct ↔ ∀ k' d', t.get? k' = some d' → d'.identity = d.identity → k' = k := by
  have hnew : t'.get? k = some d := by
    rw [hget, if_pos rfl]
  have hothers {k' : SlotKey} (hk : k' ≠ k) : t'.get? k' = t.get? k' := by
    rw [hget, if_neg hk]
  constructor
  · intro h' k' d' hd' hidentity
    by_contra hk
    exact hk (h' k' k d' d ((hothers hk).trans hd') hnew hidentity)
  · intro hno k₁ k₂ d₁ d₂ hd₁ hd₂ hidentity
    by_cases hk₁ : k₁ = k
    · subst hk₁
      rw [hnew] at hd₁
      cases hd₁
      by_contra hk₂
      rw [hothers (Ne.symm hk₂)] at hd₂
      exact hk₂ (hno k₂ d₂ hd₂ hidentity.symm).symm
    · rw [hothers hk₁] at hd₁
      by_cases hk₂ : k₂ = k
      · subst hk₂
        rw [hnew] at hd₂
        cases hd₂
        exact hno k₁ d₁ hd₁ hidentity
      · rw [hothers hk₂] at hd₂
        exact h k₁ k₂ d₁ d₂ hd₁ hd₂ hidentity

/-! ## The operations -/

theorem Distinct.replace_iff (h : t.Distinct) (hr : t.replace k d = (some old, t')) :
    t'.Distinct ↔ ∀ k' d', t.get? k' = some d' → d'.identity = d.identity → k' = k := by
  obtain ⟨e, he, hold, -⟩ := replace_eq_some.1 hr
  obtain ⟨t'', hr', hget⟩ := replace_of_get? (get?_eq_some.2 ⟨e, he, hold⟩) d
  rw [hr] at hr'
  cases hr'
  exact h.put_iff hget

theorem Distinct.remove (h : t.Distinct) (hr : t.remove k = (some old, t')) : t'.Distinct := by
  obtain ⟨e, _, herase, hold, -⟩ := remove_eq_some.1 hr
  obtain ⟨t'', hr', hget⟩ :=
    remove_of_get? (get?_eq_some.2 ⟨e, (SlotMap.erase_eq_some.1 herase).1, hold⟩)
  rw [hr] at hr'
  cases hr'
  refine h.of_subset fun k' d hd => ?_
  rw [hget] at hd
  split at hd
  · cases hd
  · exact hd

/-- What an addition looks for: another version of the definition, on its path. -/
theorem WellFormed.holds_iff (ht : t.WellFormed) {phase : Phase} {p : Pattern} (hd : d.Compiled)
    (hplace : d.place? = some (phase, p)) : k ∈ t.keysAt phase p.edges ∧ t.Holds k d ↔
      ∃ d', t.get? k = some d' ∧ d'.identity = d.identity := by
  constructor
  · rintro ⟨hmem, hholds⟩
    obtain ⟨d', hd', hsource, hsignature⟩ := ht.signature_of_holds hplace hmem hholds
    obtain ⟨e', he', -, hsame⟩ := hholds
    obtain rfl : e'.definition = d' := by
      rw [get?_eq_some.2 ⟨e', he', rfl⟩, Option.some.injEq] at hd'
      exact hd'
    exact ⟨_, hd', Definition.identity_eq_iff.2
      ⟨hsource, (Signature.mk.inj hsignature).1, hsame⟩⟩
  · rintro ⟨d', hd', hidentity⟩
    obtain ⟨e', he', rfl⟩ := get?_eq_some.1 hd'
    obtain ⟨hsource, -, hsame⟩ := Definition.identity_eq_iff.1 hidentity
    -- it has the signature of `d`, and so its phase and pattern
    have hplace' := Definition.place?_of_signature hd (ht.compiled he')
      (Identity.mk.inj hidentity).2.1.symm
    exact ⟨ht.mem_keysAt.2 ⟨_, p, hd', hplace'.trans hplace, rfl⟩, e', he', hsource, hsame⟩

theorem Distinct.addOrUpdate (h : t.Distinct) (ht : t.WellFormed) (hd : d.Compiled)
    (ha : t.addOrUpdate d = (.ok k, t')) : t'.Distinct := by
  rcases ht.addOrUpdate_cases d with ⟨-, error, hr⟩ | ⟨phase, p, hplace, hcases⟩
  · rw [ha] at hr
    cases hr
  rcases hcases with ⟨k', hmem, hholds, hr⟩ | ⟨hno, hr⟩
  · rw [ha] at hr
    cases hr
    obtain ⟨old, hold, hidentity⟩ := (ht.holds_iff hd hplace).1 ⟨hmem, hholds⟩
    rw [h.put_iff (get?_put hold d _)]
    intro k'' d' hd' hidentity'
    exact h k'' k d' old hd' hold (hidentity'.trans hidentity.symm)
  · rw [ha] at hr
    cases hr
    rw [h.put_iff (get?_graft ht phase p d).2]
    intro k' d' hd' hidentity
    obtain ⟨hmem, hholds⟩ := (ht.holds_iff hd hplace).2 ⟨d', hd', hidentity⟩
    exact absurd hholds (hno k' hmem)

end

/-! ## Runs -/

/-- The trees that calls make from the empty one, each of them by the rule. -/
inductive ReachableBy (rule : MatchingTree → Operation → Prop) : MatchingTree → Prop where
  | empty : ReachableBy rule empty
  | step {t : MatchingTree} (op : Operation) : ReachableBy rule t → rule t op →
      ReachableBy rule (t.run op)

theorem ReachableBy.reachable {rule : MatchingTree → Operation → Prop} {t : MatchingTree}
    (h : ReachableBy rule t) (hrule : ∀ t op, rule t op → op.Allowed t) : t.Reachable := by
  induction h with
  | empty => exact .empty
  | step op _ hop ih => exact .step op ih (hrule _ op hop)

/-- Whether a definition that is replaced is replaced by one of its source. -/
def Operation.KeepsSource (t : MatchingTree) : Operation → Prop
  | .replace k d => ∀ old, t.get? k = some old → old.source = d.source
  | _ => True

/-- Whether no key but the one replaced holds a version of the definition that comes in. -/
def Operation.MakesNoTwin (t : MatchingTree) : Operation → Prop
  | .replace k d => t.get? k ≠ none →
      ∀ k' d', t.get? k' = some d' → d'.identity = d.identity → k' = k
  | _ => True

def Faithful (t : MatchingTree) (op : Operation) : Prop :=
  op.Allowed t ∧ op.KeepsSource t

def Careful (t : MatchingTree) (op : Operation) : Prop :=
  op.Allowed t ∧ op.MakesNoTwin t

theorem Distinct.run {t : MatchingTree} (h : t.Distinct) (ht : t.WellFormed) {op : Operation}
    (hop : Careful t op) : (t.run op).Distinct := by
  obtain ⟨hallowed, hno⟩ := hop
  rcases t.run_cases op with hrun | ⟨d, k, rfl, ha⟩ | ⟨k, d, old, rfl, hr⟩ | ⟨k, d, hr⟩
  · rw [hrun]
    exact h
  · exact h.addOrUpdate ht hallowed ha
  · have hlive : t.get? k ≠ none := by
      obtain ⟨e, he, hold, -⟩ := replace_eq_some.1 hr
      rw [get?_eq_some.2 ⟨e, he, hold⟩]
      exact Option.some_ne_none old
    exact (h.replace_iff hr).2 (hno hlive)
  · exact h.remove hr

theorem ReachableBy.distinct {t : MatchingTree} (h : ReachableBy Careful t) : t.Distinct := by
  induction h with
  | empty => exact distinct_empty
  | step op ht hop ih => exact ih.run (ht.reachable fun _ _ => And.left).wellFormed hop

/-- If no replacement brings in a version of a definition that stands under another key, two keys
never hold versions of one definition, generated ones of different types apart. A replacement that
does breaks this. -/
theorem ReachableBy.identity_unique {t : MatchingTree} (h : ReachableBy Careful t) :
    (∀ k k' d d', t.get? k = some d → t.get? k' = some d' → d.source = d'.source →
      d.isSame d' = true → k = k' ∨ d.type ≠ d'.type ∧ d.IsGenerated ∧ d'.IsGenerated) ∧
    ∀ k d old t', t.replace k d = (some old, t') →
      (t'.Distinct ↔ ∀ k' d', t.get? k' = some d' → d'.identity = d.identity → k' = k) := by
  refine ⟨?_, fun k d old t' hr => h.distinct.replace_iff hr⟩
  intro k k' d d' hd hd' hsource hsame
  by_cases htype : d.type = d'.type
  · have hidentity := Definition.identity_eq_iff.2 ⟨hsource, htype, hsame⟩
    exact .inl (h.distinct k k' d d' hd hd' hidentity)
  · refine .inr ⟨htype, ?_⟩
    exact (Definition.type_eq_or_isGenerated hsame).resolve_left htype

/-- One of two handlers makes way for a third. -/
theorem identity_unique_knock :
    let knock (handler : String) : Definition :=
      ⟨"door", .phase .action, "I knock", .optional, .native handler none, none⟩
    let added := (empty.run (.addOrUpdate (knock "front"))).run (.addOrUpdate (knock "back"))
    let t := added.run (.replace ⟨0, 0⟩ (knock "side"))
    ReachableBy Careful t ∧
      (∀ k k' d d', t.get? k = some d → t.get? k' = some d' → d.source = d'.source →
        d.isSame d' = true → k = k' ∨ d.type ≠ d'.type ∧ d.IsGenerated ∧ d'.IsGenerated) ∧
      t.get? ⟨0, 0⟩ = some (knock "side") ∧ t.get? ⟨1, 0⟩ = some (knock "back") := by
  intro knock added t
  have hadded : ReachableBy Careful added :=
    .step _ (.step _ .empty ⟨rfl, trivial⟩) ⟨rfl, trivial⟩
  have hlive {k : SlotKey} {d : Definition} (hd : added.get? k = some d) :
      d ∈ [knock "front", knock "back"] := by
    have hlist : added.live = [knock "front", knock "back"] := by decide +kernel
    rw [← hlist]
    exact mem_live.2 ⟨k, hd⟩
  have hallowed : Operation.Allowed added (.replace ⟨0, 0⟩ (knock "side")) := by
    have hsignature : ∀ d ∈ [knock "front", knock "back"],
        d.signature = (knock "side").signature := by decide
    exact ⟨rfl, fun old hold => hsignature old (hlive hold)⟩
  have hnoTwin : Operation.MakesNoTwin added (.replace ⟨0, 0⟩ (knock "side")) := by
    intro _ k' d' hd' hidentity
    have hne : ∀ d ∈ [knock "front", knock "back"], d.identity ≠ (knock "side").identity := by
      decide
    exact absurd hidentity (hne d' (hlive hd'))
  have ht : ReachableBy Careful t := .step _ hadded ⟨hallowed, hnoTwin⟩
  exact ⟨ht, ht.identity_unique.1, by decide +kernel, by decide +kernel⟩

/-- Replacing a handler by the other leaves the other under both keys. -/
theorem replacement_makes_twin :
    let knock (handler : String) : Definition :=
      ⟨"door", .phase .action, "I knock", .optional, .native handler none, none⟩
    let added := (empty.run (.addOrUpdate (knock "front"))).run (.addOrUpdate (knock "back"))
    let t := added.run (.replace ⟨0, 0⟩ (knock "back"))
    ReachableBy Faithful t ∧
      ¬ ∀ k k' d d', t.get? k = some d → t.get? k' = some d' → d.source = d'.source →
        d.isSame d' = true → k = k' := by
  intro knock added t
  have hadded : ReachableBy Faithful added :=
    .step _ (.step _ .empty ⟨rfl, trivial⟩) ⟨rfl, trivial⟩
  have hfront : added.get? ⟨0, 0⟩ = some (knock "front") := by decide +kernel
  have hfaithful : Faithful added (.replace ⟨0, 0⟩ (knock "back")) := by
    refine ⟨⟨rfl, fun old hold => ?_⟩, fun old hold => ?_⟩
    · rw [hfront] at hold
      cases hold
      rfl
    · rw [hfront] at hold
      cases hold
      rfl
  have hreplaced : t.get? ⟨0, 0⟩ = some (knock "back") := by decide +kernel
  have hother : t.get? ⟨1, 0⟩ = some (knock "back") := by decide +kernel
  refine ⟨.step _ hadded hfaithful, fun hunique => ?_⟩
  have hkey := hunique _ _ _ _ hreplaced hother rfl (by decide)
  exact absurd hkey (by decide)

/-- Generated definitions of two types are added one after the other, although they are the same. -/
theorem types_make_twin :
    let opens (phase : Phase) : Definition :=
      ⟨"page", .phase phase, "it opens", .optional, .interaction ["door"] [], none⟩
    let t := (empty.run (.addOrUpdate (opens .context))).run (.addOrUpdate (opens .outcome))
    ReachableBy Faithful t ∧
      ¬ ∀ k k' d d', t.get? k = some d → t.get? k' = some d' → d.source = d'.source →
        d.isSame d' = true → k = k' := by
  intro opens t
  have ht : ReachableBy Faithful t := .step _ (.step _ .empty ⟨rfl, trivial⟩) ⟨rfl, trivial⟩
  have hcontext : t.get? ⟨0, 0⟩ = some (opens .context) := by decide +kernel
  have houtcome : t.get? ⟨1, 0⟩ = some (opens .outcome) := by decide +kernel
  refine ⟨ht, fun hunique => ?_⟩
  have hkey := hunique _ _ _ _ hcontext houtcome rfl (by decide)
  exact absurd hkey (by decide)

end MatchingTree

end StepLinker
