import StepLinker.Declaration.Pattern

/-!
# Specificity

How closely a pattern describes the statements it matches. More words weigh most, then fewer
placeholders, then more placeholders with a type.
-/

namespace StepLinker

structure Specificity where
  literals : Nat
  placeholders : Nat
  /-- How many of the placeholders have a type hint. -/
  typed : Nat
  deriving DecidableEq, Repr

namespace Specificity

def ofPattern (p : Pattern) : Specificity where
  literals := p.literalCount
  placeholders := p.placeholders.length
  typed := p.placeholders.countP (·.hint.isSome)

/-- The order from the least to the most specific. -/
def compare (a b : Specificity) : Ordering :=
  (Ord.compare a.literals b.literals).then
    ((Ord.compare b.placeholders a.placeholders).then (Ord.compare a.typed b.typed))

/-- The positions of the scores that are there, the most specific first and equal ones in order. -/
def ranking (scores : List (Option Specificity)) : List Nat :=
  let found := scores.zipIdx.filterMap fun (score, i) => score.map (·, i)
  (found.mergeSort fun a b => (a.1.compare b.1).isGE).map (·.2)

end Specificity

end StepLinker
