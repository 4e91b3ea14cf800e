/-!
# Slot maps

A finite map that makes up its own keys. A value lives in a slot; a slot that is emptied goes on
the free list and is filled again later, under the next generation. A key names a slot and a
generation, so a key whose value is gone does not find what the slot holds later. Generations are
32-bit words and wrap.
-/

namespace StepLinker

structure SlotKey where
  slot : Nat
  generation : UInt32
  deriving DecidableEq, Repr

structure Slot (α : Type) where
  generation : UInt32
  value : Option α
  deriving Repr

structure SlotMap (α : Type) where
  slots : Array (Slot α)
  /-- The empty slots, the one to fill next in front. -/
  free : List Nat
  /-- The number of values. -/
  size : Nat
  deriving Repr

namespace SlotMap

variable {α : Type}

def empty : SlotMap α :=
  ⟨#[], [], 0⟩

/-- The value under the key, as long as its slot is in the key's generation. -/
def get? (m : SlotMap α) (k : SlotKey) : Option α :=
  match m.slots[k.slot]? with
  | some s => if s.generation = k.generation then s.value else none
  | none => none

def push (m : SlotMap α) (free : List Nat) (value : α) : SlotKey × SlotMap α :=
  (⟨m.slots.size, 0⟩, ⟨m.slots.push ⟨0, some value⟩, free, m.size + 1⟩)

/-- Adds the value, in the slot that became free last if there is one, and returns its key. -/
def insert (m : SlotMap α) (value : α) : SlotKey × SlotMap α :=
  match m.free with
  | [] => m.push [] value
  | i :: free =>
    match m.slots[i]? with
    | some s =>
      (⟨i, s.generation⟩, ⟨m.slots.setIfInBounds i ⟨s.generation, some value⟩, free, m.size + 1⟩)
    | none => m.push free value

/-- Puts another value under a key that is in the map. -/
def replace (m : SlotMap α) (k : SlotKey) (value : α) : SlotMap α :=
  match m.get? k with
  | some _ => { m with slots := m.slots.setIfInBounds k.slot ⟨k.generation, some value⟩ }
  | none => m

def modify (m : SlotMap α) (k : SlotKey) (f : α → α) : SlotMap α :=
  match m.get? k with
  | some value => m.replace k (f value)
  | none => m

/-- Takes the value under the key out of the map. Its slot moves on to the next generation. -/
def erase (m : SlotMap α) (k : SlotKey) : Option (α × SlotMap α) :=
  (m.get? k).map fun value =>
    (value,
      ⟨m.slots.setIfInBounds k.slot ⟨k.generation + 1, none⟩, k.slot :: m.free, m.size - 1⟩)

/-- Every key with its value, in the order of the slots. -/
def entries (m : SlotMap α) : List (SlotKey × α) :=
  m.slots.toList.zipIdx.filterMap fun (s, i) => s.value.map ((⟨i, s.generation⟩, ·))

end SlotMap

end StepLinker
