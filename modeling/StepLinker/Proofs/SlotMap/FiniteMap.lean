import StepLinker.Proofs.SlotMap
import Mathlib.Data.Finmap

/-!
# A slot map is a finite map

Slots, generations and the free list are there to make up keys. What is left without them is the
finite map `contents`, from the key of each slot in use to its value. `ActsAsMap` says that every
operation does to this map what its name says, and nothing else; it holds of whatever insertions,
writes and removals make of the empty slot map (`Reachable.acts_as_map`).
-/

namespace StepLinker.SlotMap

variable {α : Type}

def contents (m : SlotMap α) : Finmap fun _ : SlotKey => α :=
  (m.entries.map fun (k, v) => (⟨k, v⟩ : Σ _ : SlotKey, α)).toFinmap

theorem lookup_contents (m : SlotMap α) (k : SlotKey) : m.contents.lookup k = m.get? k := by
  have hkeys : (m.entries.map fun (k, v) => (⟨k, v⟩ : Σ _ : SlotKey, α)).NodupKeys := by
    rw [List.NodupKeys, List.keys, List.map_map]
    exact m.nodup_entries
  ext v
  rw [contents, Finmap.dlookup_list_toFinmap, ← Option.mem_def, List.mem_dlookup_iff hkeys,
    ← mem_entries, List.mem_map]
  constructor
  · rintro ⟨⟨k', v'⟩, hmem, heq⟩
    cases heq
    exact hmem
  · intro hmem
    exact ⟨_, hmem, rfl⟩

theorem mem_contents {m : SlotMap α} {k : SlotKey} : k ∈ m.contents ↔ ∃ v, m.get? k = some v := by
  rw [Finmap.mem_iff]
  simp only [lookup_contents]

theorem notMem_contents {m : SlotMap α} {k : SlotKey} : k ∉ m.contents ↔ m.get? k = none := by
  rw [← Finmap.lookup_eq_none, lookup_contents]

theorem contents_eq {m : SlotMap α} {f : Finmap fun _ : SlotKey => α}
    (h : ∀ k, m.get? k = f.lookup k) : m.contents = f :=
  Finmap.ext_lookup fun k => (m.lookup_contents k).trans (h k)

/-! ## The operations -/

section
variable {m m' : SlotMap α} {k : SlotKey} {v : α}

theorem lookup_insert_contents (m : SlotMap α) (k k' : SlotKey) (v : α) :
    (m.contents.insert k v).lookup k' = if k' = k then some v else m.get? k' := by
  split
  · next heq =>
    rw [heq]
    exact Finmap.lookup_insert _
  · next hne => rw [Finmap.lookup_insert_of_ne _ hne, lookup_contents]

theorem contents_insert (h : m.WellFormed) (v : α) :
    (m.insert v).2.contents = m.contents.insert (m.insert v).1 v :=
  contents_eq fun k => by rw [get?_insert h, lookup_insert_contents]

theorem contents_replace (hk : k ∈ m.contents) (v : α) :
    (m.replace k v).contents = m.contents.insert k v := by
  obtain ⟨w, hw⟩ := mem_contents.1 hk
  refine contents_eq fun k' => ?_
  rw [get?_replace, lookup_insert_contents, hw]
  simp

theorem replace_of_notMem (hk : k ∉ m.contents) (v : α) : m.replace k v = m := by
  rw [replace, notMem_contents.1 hk]

theorem erase_of_notMem (hk : k ∉ m.contents) : m.erase k = none := by
  rw [erase, notMem_contents.1 hk]
  rfl

theorem contents_erase (h : m.erase k = some (v, m')) : m'.contents = m.contents.erase k := by
  refine contents_eq fun k' => ?_
  rw [get?_erase h]
  split
  · next heq => rw [heq, Finmap.lookup_erase]
  · next hne => rw [Finmap.lookup_erase_ne hne, lookup_contents]

end

/-- The slot map works as the finite map of its contents. -/
structure ActsAsMap (m : SlotMap α) : Prop where
  /-- The keys are those of the slots in use, in the generations that these are in. -/
  bound : ∀ k v, m.contents.lookup k = some v ↔ m.slots[k.slot]? = some ⟨k.generation, some v⟩
  read : ∀ k, m.get? k = m.contents.lookup k
  listed : ∀ k v, (k, v) ∈ m.entries ↔ m.contents.lookup k = some v
  listedOnce : (m.entries.map (·.1)).Nodup
  /-- The key is new to the map. -/
  inserted : ∀ v, (m.insert v).1 ∉ m.contents ∧
    (m.insert v).2.contents = m.contents.insert (m.insert v).1 v
  written : ∀ k ∈ m.contents, ∀ v, (m.replace k v).contents = m.contents.insert k v
  notWritten : ∀ k ∉ m.contents, ∀ v, m.replace k v = m
  erased : ∀ k v, m.contents.lookup k = some v →
    ∃ m', m.erase k = some (v, m') ∧ m'.contents = m.contents.erase k
  notErased : ∀ k ∉ m.contents, m.erase k = none

theorem WellFormed.actsAsMap {m : SlotMap α} (h : m.WellFormed) : m.ActsAsMap where
  bound k v := by rw [lookup_contents, get?_eq_some]
  read k := (m.lookup_contents k).symm
  listed k v := by rw [mem_entries, lookup_contents]
  listedOnce := m.nodup_entries
  inserted v := ⟨notMem_contents.2 (get?_insert_fst h v), contents_insert h v⟩
  written _ hk v := contents_replace hk v
  notWritten _ hk v := replace_of_notMem hk v
  erased k v hv := by
    rw [lookup_contents] at hv
    have herase := erase_eq_some.2 ⟨hv, rfl⟩
    exact ⟨_, herase, contents_erase herase⟩
  notErased _ hk := erase_of_notMem hk

/-! ## Runs -/

/-- The slot maps that insertions, writes and removals make of the empty one, in any order and
number. -/
inductive Reachable : SlotMap α → Prop where
  | empty : Reachable empty
  | insert {m : SlotMap α} (v : α) : Reachable m → Reachable (m.insert v).2
  | replace {m : SlotMap α} (k : SlotKey) (v : α) : Reachable m → Reachable (m.replace k v)
  | erase {m m' : SlotMap α} {k : SlotKey} {v : α} : Reachable m → m.erase k = some (v, m') →
      Reachable m'

theorem Reachable.wellFormed {m : SlotMap α} (h : m.Reachable) : m.WellFormed := by
  induction h with
  | empty => exact wellFormed_empty
  | insert v _ ih => exact ih.insert v
  | replace k v _ ih => exact ih.replace k v
  | erase _ he ih => exact ih.erase he

/-- Whatever has been done to a slot map, its free list names the empty slots, its size counts the
others, and it works as the finite map of its contents. -/
theorem Reachable.acts_as_map {m : SlotMap α} (h : m.Reachable) :
    (m.free.Nodup ∧ ∀ i, i ∈ m.free ↔ ∃ g, m.slots[i]? = some ⟨g, none⟩) ∧
      m.size = m.slots.toList.countP (·.value.isSome) ∧ m.ActsAsMap :=
  ⟨⟨h.wellFormed.free_nodup, h.wellFormed.mem_free⟩, h.wellFormed.size_eq, h.wellFormed.actsAsMap⟩

/-- The key of a slot that has been emptied is not in the map, and the slot is filled again under the
next generation. -/
theorem acts_as_map_alpha :
    let used := ((empty.insert "alpha").2.insert "beta").2
    let freed : SlotMap String := ⟨#[⟨1, none⟩, ⟨0, some "beta"⟩], [0], 1⟩
    used.erase ⟨0, 0⟩ = some ("alpha", freed) ∧ freed.Reachable ∧
      (∀ i, i ∈ freed.free ↔ ∃ g, freed.slots[i]? = some ⟨g, none⟩) ∧ freed.ActsAsMap ∧
      freed.get? ⟨0, 0⟩ = none ∧ freed.get? ⟨1, 0⟩ = some "beta" ∧
      (freed.insert "gamma").1 = ⟨0, 1⟩ := by
  intro used freed
  have herase : used.erase ⟨0, 0⟩ = some ("alpha", freed) := rfl
  have hfreed : freed.Reachable := .erase (.insert "beta" (.insert "alpha" .empty)) herase
  obtain ⟨⟨-, hfree⟩, -, hacts⟩ := hfreed.acts_as_map
  exact ⟨herase, hfreed, hfree, hacts, rfl, rfl, rfl⟩

end StepLinker.SlotMap
