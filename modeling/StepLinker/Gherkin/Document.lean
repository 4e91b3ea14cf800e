import StepLinker.StepType

/-!
# Gherkin documents

What a feature file holds before it becomes a test file: texts with the byte offsets at which their
elements begin. The text of a step begins somewhere behind its offset.
-/

namespace StepLinker.Gherkin

structure Table where
  offset : Nat
  rows : List (List String)
  deriving DecidableEq, Repr

/-- A row with fewer cells than the first leaves a hole in the table. -/
def Table.hasHoles (t : Table) : Bool :=
  match t.rows with
  | [] => false
  | first :: rest => rest.any (·.length < first.length)

/-- The table without the cells that go beyond the first row. -/
def Table.cut (t : Table) : Table :=
  match t.rows with
  | [] => t
  | first :: rest => { t with rows := first :: rest.map (·.take first.length) }

structure Step where
  offset : Nat
  /-- The keyword, with the blank that belongs to it. -/
  keyword : String
  phase : Phase
  text : String
  table : Option Table
  deriving DecidableEq, Repr

structure Background where
  offset : Nat
  steps : List Step
  deriving DecidableEq, Repr

structure Examples where
  offset : Nat
  table : Option Table
  deriving DecidableEq, Repr

structure Scenario where
  offset : Nat
  name : String
  steps : List Step
  examples : List Examples
  deriving DecidableEq, Repr

structure Rule where
  name : String
  background : Option Background
  scenarios : List Scenario
  deriving DecidableEq, Repr

structure Document where
  offset : Nat
  name : String
  description : Option String
  background : Option Background
  scenarios : List Scenario
  rules : List Rule
  deriving DecidableEq, Repr

namespace Document

def backgrounds (d : Document) : List Background :=
  d.background.toList ++ d.rules.filterMap (·.background)

def allScenarios (d : Document) : List Scenario :=
  d.scenarios ++ d.rules.flatMap (·.scenarios)

def tables (d : Document) : List Table :=
  let steps := d.backgrounds.flatMap (·.steps) ++ d.allScenarios.flatMap (·.steps)
  steps.filterMap (·.table) ++ d.allScenarios.flatMap fun s => s.examples.filterMap (·.table)

end Document

end StepLinker.Gherkin
