/-!
# Tables of character ranges

A character property outside ASCII is a list of closed ranges of code points in ascending order.
-/

namespace StepLinker.Text

/-- Whether `n` lies in one of the ranges. The list ascends, so the search ends at the first range
that does not lie below `n`. -/
def inRanges : List (Nat × Nat) → Nat → Bool
  | [], _ => false
  | (first, last) :: rest, n => if last < n then inRanges rest n else decide (first ≤ n)

end StepLinker.Text
