import StepLinker.Number.Numeral
import StepLinker.Proofs.Statement.Run
import Mathlib.Data.List.Induction
import Mathlib.Data.Nat.Digits.Defs

/-!
# The numbers of numerals

An optional sign and digits denote a number, of whatever size (`Denotes`). Reading a numeral digit
by digit gives just that number (`integer?_eq_some_iff`), and it is cut off nowhere: a number with
more than 64 bits is refused as a whole (`word64?_of_denotes`).
-/

namespace StepLinker.Numeral

open Lexeme (unsigned isInteger IsSign Digits)

def digitValue (c : Char) : Nat :=
  c.toNat - '0'.toNat

/-- The last digit counts ones, the one before it tens, and so on. -/
def magnitude (digits : List Char) : Nat :=
  Nat.ofDigits 10 (digits.reverse.map digitValue)

/-- The text is an optional sign and digits that stand for the number. -/
def Denotes (cs : List Char) (n : Int) : Prop :=
  ∃ sign digits, cs = sign ++ digits ∧ IsSign sign ∧ Digits digits ∧
    n = if sign = ['-'] then -(magnitude digits : Int) else magnitude digits

section
variable {cs sign digits : List Char} {n : Int}

theorem natural_eq_magnitude (digits : List Char) : natural digits = magnitude digits := by
  induction digits using List.reverseRecOn with
  | nil => rfl
  | append_singleton digits c ih =>
    have hlast : natural (digits ++ [c]) = 10 * natural digits + digitValue c := by
      rw [natural, List.foldl_append]
      rfl
    rw [hlast, ih, magnitude, magnitude, List.reverse_concat, List.map_cons, Nat.ofDigits_cons,
      Nat.add_comm]

theorem isNegative_append (hsign : IsSign sign) (hdigits : Digits digits) :
    isNegative (sign ++ digits) = decide (sign = ['-']) := by
  obtain ⟨hne, hdigit⟩ := hdigits
  rcases hsign with rfl | rfl | rfl
  · obtain ⟨d, ds, rfl⟩ := List.exists_cons_of_ne_nil hne
    have hd : d ≠ '-' := by
      rintro rfl
      exact absurd (hdigit '-' List.mem_cons_self) (by decide)
    simp [isNegative, hd]
  · simp [isNegative]
  · simp [isNegative]

theorem integer?_append (hsign : IsSign sign) (hdigits : Digits digits) :
    integer? (sign ++ digits) =
      some (if sign = ['-'] then -(magnitude digits : Int) else magnitude digits) := by
  have hinteger : isInteger (sign ++ digits) = true :=
    Lexeme.isInteger_iff.2 ⟨sign, digits, rfl, hsign, hdigits⟩
  have hunsigned : unsigned (sign ++ digits) = digits := by
    obtain ⟨d, ds, rfl⟩ := List.exists_cons_of_ne_nil hdigits.1
    exact Lexeme.unsigned_append hsign (hdigits.2 d List.mem_cons_self)
  simp only [integer?, if_pos hinteger, hunsigned, isNegative_append hsign hdigits,
    natural_eq_magnitude, decide_eq_true_eq]

/-- What is read of a numeral is the number that it denotes. -/
theorem integer?_eq_some_iff : integer? cs = some n ↔ Denotes cs n := by
  constructor
  · intro h
    have hinteger := (Option.ite_none_right_eq_some.1 h).1
    obtain ⟨sign, digits, rfl, hsign, hdigits⟩ := Lexeme.isInteger_iff.1 hinteger
    rw [integer?_append hsign hdigits] at h
    exact ⟨sign, digits, rfl, hsign, hdigits, (Option.some.inj h).symm⟩
  · rintro ⟨sign, digits, rfl, hsign, hdigits, rfl⟩
    exact integer?_append hsign hdigits

theorem exists_denotes_iff : (∃ n, Denotes cs n) ↔ Lexeme.Integral cs := by
  constructor
  · rintro ⟨_, sign, digits, hcs, hsign, hdigits, -⟩
    exact ⟨sign, digits, hcs, hsign, hdigits⟩
  · rintro ⟨sign, digits, hcs, hsign, hdigits⟩
    exact ⟨_, sign, digits, hcs, hsign, hdigits, rfl⟩

theorem word64?_of_denotes (h : Denotes cs n) :
    word64? cs = if -2 ^ 63 ≤ n ∧ n ≤ 2 ^ 63 - 1 then some n else none := by
  rw [word64?, integer?_eq_some_iff.2 h, Option.filter_some]
  congr 1
  simp only [decide_eq_true_eq]
  rw [eq_iff_iff]
  constructor <;> intro h <;> omega

end

end StepLinker.Numeral
