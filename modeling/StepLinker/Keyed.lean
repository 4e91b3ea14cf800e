/-!
# Keyed lists

A finite map as a list of pairs, each key once, in the order in which the keys came.
-/

namespace StepLinker

abbrev Keyed (κ α : Type) := List (κ × α)

namespace Keyed

variable {κ α : Type} [DecidableEq κ]

def find? (m : Keyed κ α) (k : κ) : Option α :=
  match m with
  | [] => none
  | (k', a) :: rest => if k' = k then some a else find? rest k

def contains (m : Keyed κ α) (k : κ) : Bool :=
  (m.find? k).isSome

/-- Puts the value under the key, in the place of what was there. -/
def insert (m : Keyed κ α) (k : κ) (a : α) : Keyed κ α :=
  match m with
  | [] => [(k, a)]
  | (k', a') :: rest => if k' = k then (k, a) :: rest else (k', a') :: insert rest k a

def erase (m : Keyed κ α) (k : κ) : Keyed κ α :=
  m.filter (·.1 ≠ k)

theorem find?_insert (m : Keyed κ α) (k k' : κ) (a : α) :
    (m.insert k a).find? k' = if k = k' then some a else m.find? k' := by
  induction m with
  | nil => rfl
  | cons p m ih =>
    by_cases h : p.1 = k
    · subst h
      by_cases h' : p.1 = k' <;> simp [insert, find?, h']
    · by_cases h' : p.1 = k'
      · subst h'
        simp [insert, find?, h, Ne.symm h]
      · simp [insert, find?, h, h', ih]

theorem erase_cons (m : Keyed κ α) (k k' : κ) (a : α) :
    erase ((k', a) :: m) k = if k' = k then m.erase k else (k', a) :: m.erase k := by
  by_cases h : k' = k <;> simp [erase, h]

theorem find?_erase (m : Keyed κ α) (k k' : κ) :
    (m.erase k).find? k' = if k = k' then none else m.find? k' := by
  induction m with
  | nil => simp [erase, find?]
  | cons p m ih =>
    obtain ⟨q, a⟩ := p
    rw [erase_cons]
    by_cases h : q = k
    · subst h
      by_cases h' : q = k' <;> simp_all [find?]
    · by_cases h' : q = k'
      · subst h'
        simp [find?, h, Ne.symm h]
      · simp [find?, h, h', ih]

end Keyed

end StepLinker
