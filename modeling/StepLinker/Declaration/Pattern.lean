import StepLinker.Declaration.Segment
import StepLinker.Statement

/-!
# Patterns

A compiled declaration: words that a statement must repeat, and placeholders for its arguments.
Literal text is read with the tokens of a statement, one word for each. A placeholder that stands
tightly between two equal quote marks takes them in (`Placeholder.quote`), and each mark is taken
in once only.
-/

namespace StepLinker

structure Placeholder where
  name : String
  hint : Option ArgumentType
  /-- The mark that stands on both sides of the argument. -/
  quote : Option QuoteMark
  deriving DecidableEq, Repr

inductive Part where
  /-- A token the statement has to repeat letter for letter. -/
  | word (text : String)
  | argument (placeholder : Placeholder)
  deriving DecidableEq, Repr

def Part.placeholder? : Part → Option Placeholder
  | word _ => none
  | argument p => some p

structure Pattern where
  declaration : String
  parts : List Part
  parts_ne_nil : parts ≠ []
  deriving DecidableEq, Repr

namespace Pattern

def placeholders (p : Pattern) : List Placeholder :=
  p.parts.filterMap Part.placeholder?

def literalCount (p : Pattern) : Nat :=
  p.parts.countP (·.placeholder?.isNone)

/-- The quote mark among these tokens that ends the text, with nothing after it. -/
def closingMark (text : List Char) (tokens : List Token) : Option QuoteMark :=
  match tokens.getLast? with
  | some ⟨start, mark, .quote q⟩ =>
    if start + Text.byteLength mark.toList = Text.byteLength text then some q else none
  | _ => none

/-- The quote mark that begins the text, with nothing before it. -/
def openingMark (text : List Char) : Option QuoteMark :=
  match (Token.ofText text).head? with
  | some ⟨0, _, .quote q⟩ => some q
  | _ => none

/-- The mark a placeholder takes in: the one right before it among `before`, if the text after it
begins with the same. -/
def foldedMark (text : List Char) (before : List Token) : List Segment → Option QuoteMark
  | .literal after :: _ =>
    match closingMark text before with
    | some q => if openingMark after = some q then some q else none
    | none => none
  | _ => none

def words (tokens : List Token) : List Part :=
  tokens.map fun t => .word t.text

/-- The parts of the segments. `folded` says whether the quote mark at the front of the first one
belongs to the placeholder before it. -/
def assemble (folded : Bool) : List Segment → List Part
  | [] => []
  | .placeholder name hint :: rest => .argument ⟨name, hint, none⟩ :: assemble false rest
  | .literal text :: rest =>
    let tokens := (Token.ofText text).drop (if folded then 1 else 0)
    match rest with
    | .placeholder name hint :: rest =>
      match foldedMark text tokens rest with
      | some q =>
        words tokens.dropLast ++ .argument ⟨name, hint, some q⟩ :: assemble true rest
      | none => words tokens ++ .argument ⟨name, hint, none⟩ :: assemble false rest
    | rest => words tokens ++ assemble false rest

def ofDeclaration (declaration : String) : Except DeclarationError Pattern := do
  let items ← items 0 declaration.toList
  let segments ← segments 0 0 [] items
  match h : assemble false segments with
  | [] => .error .empty
  | _ :: _ => .ok ⟨declaration, assemble false segments, by simp [h]⟩

end Pattern

end StepLinker
