import StepLinker.ArgumentType
import StepLinker.Declaration.Item

/-!
# Segments of a declaration

A declaration is literal text with placeholders in between. `segments` walks over the items once:
it joins the literal text between two placeholders, counts the stray braces, looks up the hints and
watches for names that come twice. It stops at the first item that is at fault.
-/

namespace StepLinker

open Text

inductive Segment where
  | literal (text : List Char)
  | placeholder (name : String) (hint : Option ArgumentType)
  deriving DecidableEq, Repr

namespace Segment

/-- The segments with literal text in front of them. It joins the literal text they begin with. -/
def withLiteral (text : List Char) : List Segment → List Segment
  | literal more :: rest => literal (text ++ more) :: rest
  | segments => literal text :: segments

def hintType (name : String) : Option (List Char) → Except DeclarationError (Option ArgumentType)
  | none => .ok none
  | some hint =>
    match ArgumentType.ofHint? (String.ofList hint) with
    | some type => .ok (some type)
    | none => .error (.unknownHint name (String.ofList hint))

end Segment

open Segment in
/-- The segments of the items that begin at byte `offset`. `depth` braces are open, and `names` are
the placeholders before them. -/
def segments (offset depth : Nat) (names : List String) :
    List Item → Except DeclarationError (List Segment)
  | [] => if depth = 0 then .ok [] else .error (.unbalancedBraces offset)
  | item :: rest =>
    let after := offset + byteLength item.source
    match item with
    | .placeholder chars hint => do
      let name := String.ofList chars
      let type ← hintType name hint
      if name ∈ names then .error (.duplicatePlaceholder name)
      else return .placeholder name type :: (← segments after depth (name :: names) rest)
    | .stray .opening =>
      (segments after (depth + 1) names rest).map (withLiteral item.literal)
    | .stray .closing =>
      if depth = 0 then .error (.unmatchedClosingBrace offset)
      else (segments after (depth - 1) names rest).map (withLiteral item.literal)
    | _ => (segments after depth names rest).map (withLiteral item.literal)

end StepLinker
