import StepLinker.SlotMap
import Mathlib.Data.List.Nodup

/-!
# What a slot map holds

`get?` is the view of a slot map: every operation is described by what it does to `get?`
(`get?_insert`, `get?_replace`, `get?_modify`, `get?_erase`). `WellFormed` ties the free list and the
size to the slots; it holds of the empty map and every operation keeps it. `entries` lists what
`get?` finds.
-/

namespace StepLinker.SlotMap

variable {α : Type}

/-- The free list names the empty slots, each once, and the size counts the other ones. -/
structure WellFormed (m : SlotMap α) : Prop where
  free_nodup : m.free.Nodup
  mem_free : ∀ i, i ∈ m.free ↔ ∃ g, m.slots[i]? = some ⟨g, none⟩
  size_eq : m.size = m.slots.toList.countP (·.value.isSome)

theorem get?_eq_some {m : SlotMap α} {k : SlotKey} {v : α} :
    m.get? k = some v ↔ m.slots[k.slot]? = some ⟨k.generation, some v⟩ := by
  unfold get?
  rcases m.slots[k.slot]? with _ | ⟨g, w⟩
  · simp
  · by_cases h : g = k.generation <;> simp [h]

/-! ## The entries -/

theorem mem_entries {m : SlotMap α} {k : SlotKey} {v : α} :
    (k, v) ∈ m.entries ↔ m.get? k = some v := by
  rw [get?_eq_some]
  simp only [entries, List.mem_filterMap, List.mk_mem_zipIdx_iff_getElem?, Prod.exists,
    Array.getElem?_toList, Option.map_eq_some_iff, Prod.mk.injEq]
  constructor
  · rintro ⟨⟨g, w⟩, i, hi, w', rfl, rfl, rfl⟩
    exact hi
  · intro h
    exact ⟨_, _, h, _, rfl, rfl, rfl⟩

theorem nodup_entries (m : SlotMap α) :
    (m.entries.map (·.1)).Nodup := by
  have slots : (m.entries.map (·.1.slot)).Sublist (m.slots.toList.zipIdx.map (·.2)) := by
    unfold entries
    generalize m.slots.toList.zipIdx = pairs
    induction pairs with
    | nil => simp
    | cons p pairs ih =>
      obtain ⟨⟨g, w⟩, i⟩ := p
      cases w with
      | none => simpa using ih.cons i
      | some w => simpa using ih.cons_cons i
  have hnd : (m.entries.map (·.1.slot)).Nodup := by
    refine slots.nodup ?_
    rw [List.zipIdx_map_snd]
    exact List.nodup_range'
  rw [show (fun p : SlotKey × α => p.1.slot) = SlotKey.slot ∘ (·.1) from rfl,
    ← List.map_map] at hnd
  exact hnd.of_map _

theorem length_entries {m : SlotMap α} (h : m.WellFormed) : m.entries.length = m.size := by
  rw [h.size_eq]
  unfold entries
  have (l : List (Slot α)) (n : Nat) :
      ((l.zipIdx n).filterMap fun p =>
        p.1.value.map ((⟨p.2, p.1.generation⟩, ·) : α → SlotKey × α)).length =
        l.countP (·.value.isSome) := by
    induction l generalizing n with
    | nil => rfl
    | cons s l ih =>
      obtain ⟨g, w⟩ := s
      cases w <;> simp [List.zipIdx_cons, ih]
  exact this _ 0

/-! ## The operations -/

theorem wellFormed_empty : (empty : SlotMap α).WellFormed :=
  ⟨by simp [empty], by simp [empty], rfl⟩

@[simp] theorem get?_empty (k : SlotKey) : (empty : SlotMap α).get? k = none := by
  simp [empty, get?]

/-- What an insertion does: it fills a slot that is empty or new. -/
theorem insert_cases {m : SlotMap α} (h : m.WellFormed) (v : α) :
    (m.free = [] ∧ m.insert v = (⟨m.slots.size, 0⟩, ⟨m.slots.push ⟨0, some v⟩, [], m.size + 1⟩)) ∨
    ∃ i g free, m.free = i :: free ∧ m.slots[i]? = some ⟨g, none⟩ ∧
      m.insert v = (⟨i, g⟩, ⟨m.slots.setIfInBounds i ⟨g, some v⟩, free, m.size + 1⟩) := by
  rcases hf : m.free with _ | ⟨i, free⟩
  · exact .inl ⟨rfl, by simp [insert, push, hf]⟩
  · obtain ⟨g, hg⟩ := (h.mem_free i).1 (by rw [hf]; exact List.mem_cons_self)
    exact .inr ⟨i, g, free, rfl, hg, by simp [insert, hf, hg]⟩

theorem get?_insert_fst {m : SlotMap α} (h : m.WellFormed) (v : α) :
    m.get? (m.insert v).1 = none := by
  rcases insert_cases h v with ⟨-, e⟩ | ⟨i, g, free, -, hg, e⟩ <;> rw [e]
  · simp [get?]
  · simp [get?, hg]

theorem get?_insert {m : SlotMap α} (h : m.WellFormed) (v : α) (k : SlotKey) :
    (m.insert v).2.get? k = if k = (m.insert v).1 then some v else m.get? k := by
  obtain ⟨j, g⟩ := k
  rcases insert_cases h v with ⟨-, e⟩ | ⟨i, g', free, -, hg, e⟩ <;> rw [e]
  · by_cases hj : j = m.slots.size
    · subst hj
      simp [get?, eq_comm]
    · simp [get?, Array.getElem?_push, hj]
  · obtain ⟨hi, hgi⟩ := Array.getElem?_eq_some_iff.1 hg
    by_cases hj : j = i
    · subst hj
      simp [get?, hi, hgi, eq_comm]
    · simp [get?, Ne.symm hj, hj]

theorem WellFormed.insert {m : SlotMap α} (h : m.WellFormed) (v : α) :
    (m.insert v).2.WellFormed := by
  have hsize := h.size_eq
  rcases insert_cases h v with ⟨hf, e⟩ | ⟨i, g, free, hf, hg, e⟩ <;> rw [e]
  · refine ⟨List.nodup_nil, fun j => ?_, by simp [hsize]⟩
    have hj := h.mem_free j
    rw [hf] at hj
    by_cases hj' : j = m.slots.size <;> simp_all [Array.getElem?_push]
  · obtain ⟨hi, hgi⟩ := Array.getElem?_eq_some_iff.1 hg
    have hnd := h.free_nodup
    rw [hf, List.nodup_cons] at hnd
    refine ⟨hnd.2, fun j => ?_, ?_⟩
    · have hj := h.mem_free j
      rw [hf, List.mem_cons] at hj
      by_cases hj' : j = i
      · subst hj'
        simp [hnd.1, hi]
      · simpa [hj', Array.getElem?_setIfInBounds, Ne.symm hj'] using hj
    · rw [Array.toList_setIfInBounds, List.countP_set (by simpa using hi)]
      simp [hgi, hsize]

theorem get?_replace (m : SlotMap α) (k k' : SlotKey) (v : α) :
    (m.replace k v).get? k' = if k' = k ∧ (m.get? k).isSome then some v else m.get? k' := by
  obtain ⟨j, g⟩ := k'
  unfold replace
  split
  · next w hw =>
    obtain ⟨hk, hs⟩ := Array.getElem?_eq_some_iff.1 (get?_eq_some.1 hw)
    by_cases hj : j = k.slot
    · subst hj
      by_cases hg : g = k.generation
      · subst hg
        simp [get?, hk, hs]
      · have : (⟨k.slot, g⟩ : SlotKey) ≠ k := fun e => hg (congrArg SlotKey.generation e)
        simp [get?, hk, hs, this, Ne.symm hg]
    · have : (⟨j, g⟩ : SlotKey) ≠ k := fun e => hj (congrArg SlotKey.slot e)
      simp [get?, Ne.symm hj, this]
  · next hw => simp [hw]

theorem WellFormed.replace {m : SlotMap α} (h : m.WellFormed) (k : SlotKey) (v : α) :
    (m.replace k v).WellFormed := by
  unfold SlotMap.replace
  split
  · next w hw =>
    obtain ⟨hk, hs⟩ := Array.getElem?_eq_some_iff.1 (get?_eq_some.1 hw)
    refine ⟨h.free_nodup, fun j => ?_, ?_⟩
    · rw [h.mem_free j]
      by_cases hj : j = k.slot
      · subst hj
        simp [hk, hs]
      · simp [Ne.symm hj]
    · have hpos : 0 < m.slots.toList.countP (·.value.isSome) :=
        List.countP_pos_iff.2 ⟨m.slots[k.slot], by simp, by simp [hs]⟩
      simp only [Array.toList_setIfInBounds, List.countP_set (show k.slot < m.slots.toList.length
        by simpa using hk), h.size_eq]
      simp only [Array.getElem_toList, hs, Option.isSome_some, if_true]
      omega
  · exact h

theorem get?_modify (m : SlotMap α) (k k' : SlotKey) (f : α → α) :
    (m.modify k f).get? k' = if k' = k then (m.get? k).map f else m.get? k' := by
  unfold modify
  split
  · next v hv =>
    rw [get?_replace, hv]
    simp
  · next hv =>
    by_cases hk : k' = k
    · rw [hk, hv]
      simp
    · rw [if_neg hk]

theorem WellFormed.modify {m : SlotMap α} (h : m.WellFormed) (k : SlotKey) (f : α → α) :
    (m.modify k f).WellFormed := by
  unfold SlotMap.modify
  split
  · exact h.replace k _
  · exact h

theorem erase_eq_some {m m' : SlotMap α} {k : SlotKey} {v : α} :
    m.erase k = some (v, m') ↔ m.get? k = some v ∧
      m' = ⟨m.slots.setIfInBounds k.slot ⟨k.generation + 1, none⟩, k.slot :: m.free,
        m.size - 1⟩ := by
  simp only [erase, Option.map_eq_some_iff, Prod.mk.injEq]
  constructor
  · rintro ⟨w, hw, rfl, rfl⟩
    exact ⟨hw, rfl⟩
  · rintro ⟨hv, rfl⟩
    exact ⟨v, hv, rfl, rfl⟩

/-- An emptied slot is in a generation that the erased key does not name, and no key finds anything
in it. -/
theorem get?_erase {m m' : SlotMap α} {k : SlotKey} {v : α} (h : m.erase k = some (v, m'))
    (k' : SlotKey) : m'.get? k' = if k' = k then none else m.get? k' := by
  obtain ⟨hv, rfl⟩ := erase_eq_some.1 h
  obtain ⟨hk, hs⟩ := Array.getElem?_eq_some_iff.1 (get?_eq_some.1 hv)
  obtain ⟨j, g⟩ := k'
  by_cases hj : j = k.slot
  · subst hj
    by_cases hg : g = k.generation
    · subst hg
      simp [get?, hk]
    · have : (⟨k.slot, g⟩ : SlotKey) ≠ k := fun e => hg (congrArg SlotKey.generation e)
      simp [get?, hk, hs, this, Ne.symm hg]
  · have : (⟨j, g⟩ : SlotKey) ≠ k := fun e => hj (congrArg SlotKey.slot e)
    simp [get?, Ne.symm hj, this]

theorem WellFormed.erase {m m' : SlotMap α} {k : SlotKey} {v : α} (h : m.WellFormed)
    (he : m.erase k = some (v, m')) : m'.WellFormed := by
  obtain ⟨hv, rfl⟩ := erase_eq_some.1 he
  obtain ⟨hk, hs⟩ := Array.getElem?_eq_some_iff.1 (get?_eq_some.1 hv)
  refine ⟨List.nodup_cons.2 ⟨fun hf => ?_, h.free_nodup⟩, fun j => ?_, ?_⟩
  · obtain ⟨g, hg⟩ := (h.mem_free _).1 hf
    rw [get?_eq_some.1 hv] at hg
    simp at hg
  · rw [List.mem_cons, h.mem_free j]
    by_cases hj : j = k.slot
    · subst hj
      simp [hk]
    · simp [hj, Ne.symm hj]
  · simp only [Array.toList_setIfInBounds, List.countP_set (show k.slot < m.slots.toList.length
      by simpa using hk), h.size_eq]
    simp [hs]

/-! ## Sizes -/

theorem size_insert (m : SlotMap α) (v : α) : (m.insert v).2.size = m.size + 1 := by
  unfold insert push
  split
  · rfl
  · split <;> rfl

theorem size_replace (m : SlotMap α) (k : SlotKey) (v : α) : (m.replace k v).size = m.size := by
  unfold replace
  split <;> rfl

theorem size_modify (m : SlotMap α) (k : SlotKey) (f : α → α) : (m.modify k f).size = m.size := by
  unfold modify
  split
  · exact size_replace m k _
  · rfl

theorem WellFormed.size_erase {m m' : SlotMap α} {k : SlotKey} {v : α} (h : m.WellFormed)
    (he : m.erase k = some (v, m')) : m'.size + 1 = m.size := by
  obtain ⟨hv, rfl⟩ := erase_eq_some.1 he
  have hsize : 0 < m.size := by
    rw [← length_entries h]
    exact List.length_pos_of_mem (mem_entries.2 hv)
  exact Nat.sub_add_cancel hsize

/-! ## Generations

A slot moves on to the next generation when it is emptied and at no other time, so a key finds what
its slot holds if no value has left the slot since, or `2 ^ 32` values have. -/

def generation? (m : SlotMap α) (i : Nat) : Option UInt32 :=
  m.slots[i]?.map (·.generation)

theorem generation?_of_get? {m : SlotMap α} {k : SlotKey} {v : α} (h : m.get? k = some v) :
    m.generation? k.slot = some k.generation := by
  rw [generation?, get?_eq_some.1 h]
  rfl

theorem generation?_insert {m : SlotMap α} {i : Nat} {g : UInt32} (h : m.generation? i = some g)
    (v : α) : (m.insert v).2.generation? i = some g := by
  obtain ⟨s, hs, rfl⟩ := Option.map_eq_some_iff.1 h
  obtain ⟨hi, -⟩ := Array.getElem?_eq_some_iff.1 hs
  have hpush (free : List Nat) : (m.push free v).2.generation? i = some s.generation := by
    simp [push, generation?, Array.getElem?_push, Nat.ne_of_lt hi, hs]
  unfold insert
  split
  · exact hpush []
  · next j free _ =>
    split
    · next s' hs' =>
      by_cases hj : j = i
      · subst hj
        rw [hs] at hs'
        cases hs'
        simp [generation?, hi]
      · simp [generation?, hj, hs]
    · exact hpush free

theorem generation?_replace (m : SlotMap α) (k : SlotKey) (v : α) (i : Nat) :
    (m.replace k v).generation? i = m.generation? i := by
  unfold replace
  split
  · next w hw =>
    by_cases hi : k.slot = i
    · subst hi
      obtain ⟨hk, -⟩ := Array.getElem?_eq_some_iff.1 (get?_eq_some.1 hw)
      rw [generation?_of_get? hw]
      simp [generation?, hk]
    · simp [generation?, hi]
  · rfl

theorem generation?_modify (m : SlotMap α) (k : SlotKey) (f : α → α) (i : Nat) :
    (m.modify k f).generation? i = m.generation? i := by
  unfold modify
  split
  · exact generation?_replace m k _ i
  · rfl

theorem generation?_erase {m m' : SlotMap α} {k : SlotKey} {v : α} (h : m.erase k = some (v, m'))
    (i : Nat) :
    m'.generation? i = if i = k.slot then some (k.generation + 1) else m.generation? i := by
  obtain ⟨hv, rfl⟩ := erase_eq_some.1 h
  obtain ⟨hk, -⟩ := Array.getElem?_eq_some_iff.1 (get?_eq_some.1 hv)
  by_cases hi : i = k.slot
  · subst hi
    simp [generation?, hk]
  · simp [generation?, hi, Ne.symm hi]

end StepLinker.SlotMap
