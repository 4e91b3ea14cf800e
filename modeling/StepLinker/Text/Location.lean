/-!
# Lines and columns

A location counts lines and columns from 1, columns in characters. A range names its first and its
last character, so that a range of one character starts and ends at the same place.

The counts have no bound here. A program keeps them in 64-bit words, so it has a place only if that
is `Representable`, and going on from a place makes sense only as far as that holds.
-/

namespace StepLinker.Text

/-- A line and a column. Line 0 stands for a place nobody knows. -/
structure Location where
  line : Nat
  column : Nat
  deriving DecidableEq, Repr, Inhabited

/-- Whether the line and the column fit in 64-bit words. -/
def Location.Representable (l : Location) : Prop :=
  l.line < UInt64.size ∧ l.column < UInt64.size

instance (l : Location) : Decidable l.Representable :=
  inferInstanceAs (Decidable (_ ∧ _))

/-- The location `n` characters further along the line. -/
def Location.advance (l : Location) (n : Nat) : Location :=
  { l with column := l.column + n }

/-- A range from its first to its last character. -/
structure Range where
  start : Location
  stop : Location
  deriving DecidableEq, Repr, Inhabited

/-- The range of a text on one line. An empty text takes the place of one character. -/
def Range.ofText (start : Location) (text : String) : Range :=
  ⟨start, start.advance (text.length - 1)⟩

def Range.point (l : Location) : Range :=
  ⟨l, l⟩

/-- The range of something that has no known place. -/
def Range.unknown : Range :=
  Range.point ⟨0, 0⟩

end StepLinker.Text
