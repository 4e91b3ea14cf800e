import StepLinker.Keyed
import StepLinker.Number.Numeral
import StepLinker.Tree.MatchingTree

/-!
# Steps

A step of a test file: a statement at a place, perhaps with a table, and the definition it is bound
to with the values of its arguments.
-/

namespace StepLinker

structure Table where
  location : Text.Location
  header : List String
  rows : List (List String)
  deriving DecidableEq, Repr

inductive Value where
  | text (text : String)
  | integer (number : Int)
  | decimal (number : Binary64)
  /-- A text whose value is only known when the step runs. -/
  | deferred (text : String)
  deriving DecidableEq, Repr

/-- The text with each backslash taken off the character it protects. -/
def unescape : List Char → List Char
  | [] => []
  | '\\' :: c :: cs => c :: unescape cs
  | c :: cs => c :: unescape cs

structure ArgumentBinding where
  placeholder : Placeholder
  span : Span
  /-- The type of the value, if it is known before the step runs. -/
  type : Option ArgumentType
  /-- The value as it is written, without the quote marks around it. -/
  raw : String
  deriving DecidableEq, Repr

/-- The value of the argument. A number that does not fit its type stays a text. -/
def ArgumentBinding.value (b : ArgumentBinding) : Value :=
  match b.type with
  | some .integer => ((Numeral.word64? b.raw.toList).map Value.integer).getD (.text b.raw)
  | some .decimal => ((Numeral.binary64? b.raw.toList).map Value.decimal).getD (.text b.raw)
  | some .text => .text (String.ofList (unescape b.raw.toList))
  | none => .deferred b.raw

structure Binding where
  definition : Definition
  /-- The arguments in the order of the declaration. -/
  arguments : List ArgumentBinding
  deriving DecidableEq, Repr

namespace Binding

def argument? (b : Binding) (name : String) : Option ArgumentBinding :=
  b.arguments.find? (·.placeholder.name = name)

/-- The values a generated definition comes with, the last one for each name. -/
def substitutions? (b : Binding) : Option (Keyed String String) :=
  match b.definition.kind with
  | .interaction _ (v :: vs) => some ((v :: vs).foldl (fun m (k, a) => m.insert k a) [])
  | _ => none

end Binding

structure Step where
  /-- The type as it is written. -/
  type : StepType
  /-- The type the step is bound as. -/
  bindingType : StepType
  statement : Statement
  /-- Where the statement begins. -/
  location : Text.Location
  table : Option Table
  binding : Option Binding
  deriving DecidableEq, Repr

namespace Step

/-- A step that is not bound. -/
def ofText (type bindingType : StepType) (text : String) (location : Text.Location)
    (table : Option Table) : Step :=
  ⟨type, bindingType, .ofText text, location, table, none⟩

def text (s : Step) : String :=
  s.statement.text

def range (s : Step) : Text.Range :=
  .ofText s.location s.text

/-- Where the byte `offset` of the statement stands. -/
def locationOf (s : Step) (offset : Nat) : Text.Location :=
  s.location.advance (Text.takeBytes offset s.text.toList).length

/-- The range of the tokens from `first` up to but not including `stop`, or of the whole statement
if there are no such tokens. -/
def tokenRange (s : Step) (first stop : Nat) : Text.Range :=
  if first < stop then
    match s.statement.tokens[first]?, s.statement.tokens[stop - 1]? with
    | some a, some b =>
      ⟨s.locationOf a.start, (s.locationOf b.start).advance (b.text.length - 1)⟩
    | _, _ => s.range
  else s.range

end Step

end StepLinker
