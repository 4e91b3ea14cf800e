/-!
# Why a declaration is refused

Every way in which the text of a declaration can be wrong, and the words for it. Positions are
byte offsets in the declaration.
-/

namespace StepLinker

inductive DeclarationError where
  /-- A placeholder is written wrongly. `position` is the byte of its brace. -/
  | malformedPlaceholder (position : Nat) (name : String)
  /-- A placeholder never closes. `position` is the byte of its brace. -/
  | unclosedPlaceholder (position : Nat) (name : String)
  /-- A closing brace stands where no brace is open. -/
  | unmatchedClosingBrace (position : Nat)
  /-- A brace is still open at the end. `position` is the length of the declaration. -/
  | unbalancedBraces (position : Nat)
  | unknownHint (placeholder hint : String)
  | duplicatePlaceholder (name : String)
  /-- The declaration has neither a word nor a placeholder. -/
  | empty
  deriving DecidableEq, Repr

namespace DeclarationError

/-- The byte offset the error points at, if it points at one. -/
def position? : DeclarationError → Option Nat
  | malformedPlaceholder p _ => some p
  | unclosedPlaceholder p _ => some p
  | unmatchedClosingBrace p => some p
  | unbalancedBraces p => some p
  | _ => none

def malformedName? : DeclarationError → Option String
  | malformedPlaceholder _ name => some name
  | unclosedPlaceholder _ name => some name
  | _ => none

def atByte (position : Nat) : String :=
  s!" at byte {position} (zero-based)"

def message : DeclarationError → String
  | malformedPlaceholder p name =>
    s!"invalid placeholder in step declaration for placeholder `{name}`" ++ atByte p
  | unclosedPlaceholder p name =>
    s!"missing closing '\x7d' for placeholder for placeholder `{name}`" ++ atByte p
  | unmatchedClosingBrace p => "unmatched closing brace '\x7d' in step declaration" ++ atByte p
  | unbalancedBraces p => "unbalanced braces in step declaration" ++ atByte p
  | unknownHint placeholder hint =>
    s!"unknown type hint `{hint}` for placeholder `{placeholder}`"
  | duplicatePlaceholder name => s!"placeholder `{name}` is declared more than once"
  | empty => "step declaration is empty"

end DeclarationError

end StepLinker
