import StepLinker.Number.Binary64
import StepLinker.Statement.Lexeme

/-!
# Numerals

The numbers that the texts of number tokens denote. An integer is exact and must fit into 64 bits;
a decimal number is the nearest binary one.
-/

namespace StepLinker.Numeral

open Lexeme (unsigned isInteger isDecimal)

/-- Whether a minus sign stands in front. -/
def isNegative (cs : List Char) : Bool :=
  cs.head? = some '-'

/-- The number a text of ASCII digits denotes. -/
def natural (cs : List Char) : Nat :=
  cs.foldl (fun n c => 10 * n + (c.toNat - '0'.toNat)) 0

/-- The number an optional sign and digits denote, of whatever size. -/
def integer? (cs : List Char) : Option Int :=
  if isInteger cs then
    let n : Int := natural (unsigned cs)
    some (if isNegative cs then -n else n)
  else none

def word64? (cs : List Char) : Option Int :=
  (integer? cs).filter fun n => -0x8000000000000000 ≤ n ∧ n < 0x8000000000000000

/-- The binary number nearest to what an optional sign, digits, a point and digits denote. -/
def binary64? (cs : List Char) : Option Binary64 :=
  if isDecimal cs then
    let digits := (unsigned cs).filter Char.isDigit
    let places := ((unsigned cs).dropWhile Char.isDigit).length - 1
    some (.ofFraction (isNegative cs) (natural digits) (Nat.pow 10 places))
  else none

end StepLinker.Numeral
