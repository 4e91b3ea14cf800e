import StepLinker.Definition

/-!
# Diagnostics

What goes wrong while definitions are registered and steps are bound. A diagnostic holds its cause
and its place, without any wording; a message is a diagnostic put into words. The numbers of the
codes are fixed for good, so that tools can filter by them.
-/

namespace StepLinker

inductive Level where
  | info
  | warning
  | error
  deriving DecidableEq, Repr

def Level.name : Level → String
  | info => "Info"
  | warning => "Warning"
  | error => "Error"

inductive Code where
  | declarationInvalid
  | noMatchingDefinition
  | multipleMatchingDefinitions
  | valueRequired
  | typeNotCompatible
  | surroundingWhitespace
  | tableRequired
  | tableNotSupported
  deriving DecidableEq, Repr

namespace Code

/-- Every code, in the order of the numbers. -/
def all : List Code :=
  [declarationInvalid, noMatchingDefinition, multipleMatchingDefinitions, valueRequired,
    typeNotCompatible, surroundingWhitespace, tableRequired, tableNotSupported]

/-- The number of the code. All numbers have five digits. -/
def number : Code → Nat
  | declarationInvalid => 10001
  | noMatchingDefinition => 20001
  | multipleMatchingDefinitions => 20002
  | valueRequired => 20003
  | typeNotCompatible => 20004
  | surroundingWhitespace => 20005
  | tableRequired => 20006
  | tableNotSupported => 20007

def ofNumber? (n : Nat) : Option Code :=
  all.find? (·.number = n)

def unknownMessage (n : Nat) : String :=
  s!"unknown compiler message code {n}"

def level : Code → Level
  | surroundingWhitespace => .warning
  | _ => .error

/-- The name under which the wording of the code is kept. -/
def id : Code → String
  | declarationInvalid => "step-definition-declaration-invalid"
  | noMatchingDefinition => "linker-no-matching-step-definition"
  | multipleMatchingDefinitions => "linker-multiple-matching-definitions"
  | valueRequired => "type-requires-value-for-argument"
  | typeNotCompatible => "argument-type-not-compatible"
  | surroundingWhitespace => "argument-has-surrounding-whitespace"
  | tableRequired => "linker-table-required"
  | tableNotSupported => "linker-table-not-supported"

def ofId? (id : String) : Option Code :=
  all.find? (·.id = id)

end Code

inductive Cause where
  | declarationInvalid (declaration : String) (error : DefinitionError)
  | noMatchingDefinition (step : String)
  /-- The definitions are given by source and declaration. -/
  | multipleMatchingDefinitions (step : String) (definitions : List (String × String))
  /-- A number is asked for and nothing stands between the quote marks. -/
  | valueRequired (type : ArgumentType) (placeholder : String)
  | typeNotCompatible (value : String) (type : ArgumentType) (placeholder : String)
  | surroundingWhitespace (placeholder : String)
  | tableRequired (declaration : String)
  | tableNotSupported (declaration : String)
  deriving DecidableEq, Repr

namespace Cause

def code : Cause → Code
  | declarationInvalid .. => .declarationInvalid
  | noMatchingDefinition .. => .noMatchingDefinition
  | multipleMatchingDefinitions .. => .multipleMatchingDefinitions
  | valueRequired .. => .valueRequired
  | typeNotCompatible .. => .typeNotCompatible
  | surroundingWhitespace .. => .surroundingWhitespace
  | tableRequired .. => .tableRequired
  | tableNotSupported .. => .tableNotSupported

/-- What the wording of the code has to fill in, by name. -/
def arguments : Cause → List (String × String)
  | declarationInvalid declaration error =>
    [("declaration", declaration), ("reason", error.message)]
  | noMatchingDefinition step => [("step", step)]
  | multipleMatchingDefinitions step definitions =>
    [("count", toString definitions.length), ("step", step),
      ("definitions",
        ", ".intercalate <|
          definitions.map fun (source, declaration) => s!"{source} `{declaration}`")]
  | valueRequired type placeholder => [("hint", type.name), ("name", placeholder)]
  | typeNotCompatible value type placeholder =>
    [("value", value), ("hint", type.name), ("name", placeholder)]
  | surroundingWhitespace placeholder => [("name", placeholder)]
  | tableRequired declaration => [("declaration", declaration)]
  | tableNotSupported declaration => [("declaration", declaration)]

end Cause

structure Diagnostic where
  /-- The file or source it is about. -/
  source : Option String
  cause : Cause
  range : Text.Range
  deriving DecidableEq, Repr

/-- A diagnostic in words. -/
structure Message where
  source : Option String
  code : Code
  text : String
  range : Text.Range
  deriving DecidableEq, Repr

def Message.line (m : Message) : String :=
  let source := m.source.getD ""
  let range := m.range
  let place :=
    s!"({range.start.line},{range.start.column},{range.stop.line},{range.stop.column})"
  s!"{source}{place}: {m.code.level.name} ASC{m.code.number}: {m.text}"

/-! ## Success

Only errors make an operation fail. -/

/-- What is reported under a code. -/
class Coded (μ : Type) where
  code : μ → Code

instance : Coded Code := ⟨id⟩
instance : Coded Diagnostic := ⟨(·.cause.code)⟩
instance : Coded Message := ⟨(·.code)⟩

def isError {μ : Type} [Coded μ] (m : μ) : Bool :=
  (Coded.code m).level = .error

/-- Whether nothing that is reported is an error. -/
def succeeds {μ : Type} [Coded μ] (messages : List μ) : Bool :=
  messages.all (!isError ·)

/-- What an operation produced, if it produced anything, and what it has to report. -/
structure Outcome (α μ : Type) where
  output : Option α
  messages : List μ
  deriving DecidableEq, Repr

namespace Outcome

variable {α μ : Type}

def success [Coded μ] (o : Outcome α μ) : Bool :=
  succeeds o.messages

def report (o : Outcome α μ) (messages : List μ) : Outcome α μ :=
  { o with messages := o.messages ++ messages }

end Outcome

end StepLinker
