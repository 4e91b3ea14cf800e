/-!
# Blank characters

The Unicode property `White_Space`, and what it means to trim a text. Blank characters separate
the tokens of a statement and never belong to one, unless a backslash stands before them.
-/

namespace StepLinker.Text

def isBlank (c : Char) : Bool :=
  let n := c.toNat
  (9 ≤ n && n ≤ 13) || n = 0x20 || n = 0x85 || n = 0xA0 || n = 0x1680 ||
    (0x2000 ≤ n && n ≤ 0x200A) || n = 0x2028 || n = 0x2029 || n = 0x202F || n = 0x205F ||
    n = 0x3000

/-- The text without the blank characters at its end. -/
def trimRight (cs : List Char) : List Char :=
  (cs.reverse.dropWhile isBlank).reverse

def trim (cs : List Char) : List Char :=
  trimRight (cs.dropWhile isBlank)

def trimString (s : String) : String :=
  String.ofList (trim s.toList)

end StepLinker.Text
