/-!
# Binary floating-point numbers

The 64-bit numbers of IEEE 754 by their bits, and the one nearest to a fraction. Only whole-number
arithmetic is used: a finite number with the exponent field `e` is a multiple of its last place, so
rounding a fraction is rounding a quotient. Read as a whole number, the bits of a positive number
count the places up to it, which is why a carry out of the significand needs no care.
-/

namespace StepLinker

structure Binary64 where
  bits : UInt64
  deriving DecidableEq, Repr

namespace Binary64

/-- The whole number nearest to `n / d`; halfway between two it is the even one. -/
def roundQuotient (n d : Nat) : Nat :=
  let q := n / d
  let r := 2 * (n % d)
  if r < d then q else if d < r then q + 1 else q + q % 2

def infinity : Nat :=
  0x7FF <<< 52

/-- The number of doublings that bring the least last place, `2 ^ -1074`, up to the last place of
`n / d`. -/
def lastPlace (n d : Nat) : Nat :=
  let fits (k : Nat) : Bool := n <<< 1074 < d <<< (k + 53)
  let guess := n.log2 + 1074 - d.log2 - 53
  if fits guess then guess else guess + 1

/-- The bits of the number nearest to `n / d`, without a sign. -/
def magnitude (n d : Nat) : Nat :=
  let k := if n = 0 then 0 else lastPlace n d
  min infinity ((k <<< 52) + roundQuotient (n <<< 1074) (d <<< k))

/-- The number nearest to `n / d`, with its sign. -/
def ofFraction (negative : Bool) (n d : Nat) : Binary64 :=
  ⟨UInt64.ofNat (magnitude n d + if negative then 1 <<< 63 else 0)⟩

end Binary64

end StepLinker
