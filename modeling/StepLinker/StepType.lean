import StepLinker.Text.Blank

/-!
# Step types

A step sets up a context (`Given`), performs an action (`When`) or checks an outcome (`Then`); a
conjunction (`And`) shares the phase of the step before it. Definitions are kept by phase, so a
conjunction has to be resolved before its step can be bound.
-/

namespace StepLinker

inductive Phase where
  | context
  | action
  | outcome
  deriving DecidableEq, Repr

inductive StepType where
  | phase (phase : Phase)
  | conjunction
  deriving DecidableEq, Repr

namespace StepType

def keyword : StepType → String
  | phase .context => "Given"
  | phase .action => "When"
  | phase .outcome => "Then"
  | conjunction => "And"

def phase? : StepType → Option Phase
  | phase p => some p
  | conjunction => none

def order : StepType → Nat
  | phase .context => 0
  | phase .action => 1
  | phase .outcome => 2
  | conjunction => 3

/-- The type a keyword names. Blank characters around it do not count, nor does the case of its
letters; the keyword itself comes back if it names none. -/
def ofKeyword (text : String) : Except String StepType :=
  let word := Text.trimString text
  match word.toLower with
  | "given" => .ok (.phase .context)
  | "when" => .ok (.phase .action)
  | "then" => .ok (.phase .outcome)
  | "and" => .ok .conjunction
  | "but" => .ok .conjunction
  | _ => .error word

def invalidMessage (word : String) : String :=
  s!"invalid step type: {word}"

/-- The type a step is bound as, and the type that a conjunction after it takes. A conjunction with
nothing before it counts as a context step. -/
def resolve (type : StepType) (previous : Option StepType) : StepType × Option StepType :=
  match type with
  | phase p => (phase p, some (phase p))
  | conjunction => (previous.getD (phase .context), previous)

end StepType

end StepLinker
