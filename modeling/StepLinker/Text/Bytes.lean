/-!
# Byte offsets

Positions inside a statement or a declaration are byte offsets of its UTF-8 encoding. Texts are
lists of characters here, so an offset is a sum of character sizes, and a piece of a text is cut
out by walking to its first byte and then to its last.
-/

namespace StepLinker.Text

def byteLength : List Char → Nat
  | [] => 0
  | c :: cs => c.utf8Size + byteLength cs

/-- What is left of the text from byte `n` on. An offset inside a character counts as its end. -/
def dropBytes : Nat → List Char → List Char
  | _, [] => []
  | n, c :: cs => if n = 0 then c :: cs else dropBytes (n - c.utf8Size) cs

/-- The characters of the text that start before byte `n`. -/
def takeBytes : Nat → List Char → List Char
  | _, [] => []
  | n, c :: cs => if n = 0 then [] else c :: takeBytes (n - c.utf8Size) cs

/-- The text between the byte offsets `start` and `stop`. -/
def byteSlice (cs : List Char) (start stop : Nat) : List Char :=
  takeBytes (stop - start) (dropBytes start cs)

theorem byteLength_append (as bs : List Char) :
    byteLength (as ++ bs) = byteLength as + byteLength bs := by
  induction as with
  | nil => simp [byteLength]
  | cons a as ih => simp [byteLength, ih, Nat.add_assoc]

end StepLinker.Text
