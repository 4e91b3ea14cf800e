import StepLinker.Keyed
import Mathlib.Data.Finset.Card
import Mathlib.Data.List.Nodup

/-!
# Keyed lists as maps

A keyed list is a map as long as no key comes twice (`Distinct`). Then its pairs are exactly what
`find?` finds, and writing and erasing keep it so. The keys as a set are its `domain`.
-/

namespace StepLinker.Keyed

variable {κ α : Type}

/-- No key comes twice. -/
def Distinct (m : Keyed κ α) : Prop :=
  (m.map (·.1)).Nodup

theorem Distinct.nodup {m : Keyed κ α} (h : m.Distinct) : m.Nodup :=
  List.Nodup.of_map _ h

variable [DecidableEq κ]

theorem mem_of_find? {m : Keyed κ α} {k : κ} {a : α} (h : m.find? k = some a) : (k, a) ∈ m := by
  induction m with
  | nil => cases h
  | cons p m ih =>
    simp only [find?] at h
    split at h
    · next hk =>
      cases h
      rw [← hk]
      exact List.mem_cons_self
    · exact List.mem_cons_of_mem _ (ih h)

theorem Distinct.find?_eq_some {m : Keyed κ α} (h : m.Distinct) {k : κ} {a : α} :
    m.find? k = some a ↔ (k, a) ∈ m := by
  refine ⟨mem_of_find?, fun hm => ?_⟩
  induction m with
  | nil => cases hm
  | cons p m ih =>
    obtain ⟨hp, hnd⟩ := List.nodup_cons.1 h
    rcases List.mem_cons.1 hm with rfl | hm
    · simp [find?]
    · have hk : p.1 ≠ k := by
        rintro rfl
        exact hp (List.mem_map.2 ⟨_, hm, rfl⟩)
      simp only [find?, hk, if_false]
      exact ih hnd hm

theorem find?_eq_none {m : Keyed κ α} {k : κ} : m.find? k = none ↔ k ∉ m.map (·.1) := by
  induction m with
  | nil => simp [find?]
  | cons p m ih =>
    by_cases h : p.1 = k
    · simp [find?, h]
    · simp [find?, h, ih, Ne.symm h]

theorem map_fst_insert (m : Keyed κ α) (k : κ) (a : α) :
    (m.insert k a).map (·.1) = if k ∈ m.map (·.1) then m.map (·.1) else m.map (·.1) ++ [k] := by
  induction m with
  | nil => rfl
  | cons p m ih =>
    by_cases h : p.1 = k
    · simp [insert, h]
    · simp only [insert, h, if_false, List.map_cons, ih, List.mem_cons, Ne.symm h, false_or]
      split <;> rfl

theorem Distinct.insert {m : Keyed κ α} (h : m.Distinct) (k : κ) (a : α) :
    (m.insert k a).Distinct := by
  unfold Distinct
  rw [map_fst_insert]
  split
  · exact h
  · next hk => exact h.append (List.nodup_singleton k) (by simpa using hk)

theorem Distinct.erase {m : Keyed κ α} (h : m.Distinct) (k : κ) : (m.erase k).Distinct :=
  List.Nodup.sublist (List.Sublist.map _ List.filter_sublist) h

theorem erase_eq_self {m : Keyed κ α} {k : κ} (h : m.find? k = none) : m.erase k = m := by
  refine List.filter_eq_self.2 fun p hp => decide_eq_true ?_
  rintro rfl
  exact find?_eq_none.1 h (List.mem_map.2 ⟨p, hp, rfl⟩)

theorem map_insert {β : Type} (f : α → β) (m : Keyed κ α) (k : κ) (a : α) :
    (m.insert k a).map (fun p => (p.1, f p.2)) =
      insert (m.map fun p => (p.1, f p.2)) k (f a) := by
  induction m with
  | nil => rfl
  | cons p m ih =>
    by_cases h : p.1 = k
    · simp [insert, h]
    · simp [insert, h, ih]

theorem map_erase {β : Type} (f : α → β) (m : Keyed κ α) (k : κ) :
    (m.erase k).map (fun p => (p.1, f p.2)) = erase (m.map fun p => (p.1, f p.2)) k := by
  rw [erase, erase, List.filter_map]
  rfl

/-! ## The set of keys -/

def domain (m : Keyed κ α) : Finset κ :=
  (m.map (·.1)).toFinset

theorem mem_domain {m : Keyed κ α} {k : κ} : k ∈ m.domain ↔ ∃ a, m.find? k = some a := by
  rw [domain, List.mem_toFinset, ← Option.ne_none_iff_exists', Ne, find?_eq_none, not_not]

theorem notMem_domain {m : Keyed κ α} {k : κ} : k ∉ m.domain ↔ m.find? k = none := by
  rw [domain, List.mem_toFinset, find?_eq_none]

theorem domain_insert (m : Keyed κ α) (k : κ) (a : α) :
    (m.insert k a).domain = m.domain ∪ {k} := by
  ext k'
  by_cases h : k = k' <;> simp [mem_domain, find?_insert, h, eq_comm]

theorem domain_erase (m : Keyed κ α) (k : κ) : (m.erase k).domain = m.domain \ {k} := by
  ext k'
  by_cases h : k = k' <;> simp [mem_domain, find?_erase, h, eq_comm]

theorem Distinct.card_domain {m : Keyed κ α} (h : m.Distinct) : m.domain.card = m.length := by
  rw [domain, List.toFinset_card_of_nodup h, List.length_map]

end StepLinker.Keyed
