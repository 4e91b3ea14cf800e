import StepLinker.Text.Bytes
import StepLinker.Text.Location

/-!
# Line index

From byte offsets in a text to lines and columns. The starts of the lines are laid out once, each
with its offset and what is left of the text from there; looking up an offset is a binary search
for its line and a count of the characters between the two.
-/

namespace StepLinker.Text

structure LineStart where
  offset : Nat
  /-- What is left of the text, with this line and all that follow. -/
  rest : List Char
  deriving DecidableEq, Repr

/-- The starts of the lines after the first of a text that begins at byte `offset`. -/
def LineStart.further (offset : Nat) : List Char → List LineStart
  | [] => []
  | c :: cs =>
    let next := offset + c.utf8Size
    if c = '\n' then ⟨next, cs⟩ :: further next cs else further next cs

structure LineIndex where
  lines : Array LineStart

namespace LineIndex

def ofText (text : List Char) : LineIndex :=
  ⟨(⟨0, text⟩ :: LineStart.further 0 text).toArray⟩

/-- The number of elements for which `p` holds, if it holds for those before some point and for
none after it. The point lies from `low` to `high`. -/
def partitionPoint (p : Nat → Bool) (low high : Nat) : Nat :=
  if low < high then
    let middle := (low + high) / 2
    if p middle then partitionPoint p (middle + 1) high else partitionPoint p low middle
  else low
termination_by high - low

/-- Whether line `i`, counted from 0, begins at `offset` or before it. -/
def beginsBy (index : LineIndex) (offset i : Nat) : Bool :=
  index.lines[i]?.any (·.offset ≤ offset)

def lineNumber (index : LineIndex) (offset : Nat) : Nat :=
  partitionPoint (index.beginsBy offset) 0 index.lines.size

/-- The start of the line on which the byte offset lies. -/
def lineStart (index : LineIndex) (offset : Nat) : LineStart :=
  index.lines[index.lineNumber offset - 1]?.getD ⟨offset, []⟩

def location (index : LineIndex) (offset : Nat) : Location :=
  let line := index.lineStart offset
  ⟨index.lineNumber offset, (takeBytes (offset - line.offset) line.rest).length + 1⟩

/-- What is left of the text from the byte offset on. -/
def restAt (index : LineIndex) (offset : Nat) : List Char :=
  let line := index.lineStart offset
  dropBytes (offset - line.offset) line.rest

/-- The byte offset at which the needle first occurs in a text that begins at byte `start`. -/
def search? (needle : List Char) (start : Nat) : List Char → Option Nat
  | [] => if needle.isEmpty then some start else none
  | c :: cs =>
    if needle.isPrefixOf (c :: cs) then some start else search? needle (start + c.utf8Size) cs

/-- Where the needle first occurs at or after the byte offset `start`. -/
def find? (index : LineIndex) (start : Nat) (needle : List Char) : Option Location :=
  (search? needle start (index.restAt start)).map index.location

end LineIndex

end StepLinker.Text
