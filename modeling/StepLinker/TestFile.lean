import StepLinker.Step

/-!
# Test files

What a file holds once it is read: a feature with its background and scenarios, and the step
definitions that the file declares itself. `steps` lists every step, and `visitSteps` goes through
them and puts what comes of each in its place.
-/

namespace StepLinker

structure Background where
  location : Text.Location
  steps : List Step
  deriving DecidableEq, Repr

/-- Values for the parameters of a scenario. -/
structure Examples where
  location : Text.Location
  table : Option Table
  deriving DecidableEq, Repr

structure Scenario where
  name : String
  location : Text.Location
  steps : List Step
  examples : List Examples
  deriving DecidableEq, Repr

/-- Whether the scenario is run once for each row of its examples. -/
def Scenario.isOutline (s : Scenario) : Bool :=
  !s.examples.isEmpty

structure Feature where
  name : String
  location : Text.Location
  description : Option String
  background : Option Background
  scenarios : List Scenario
  deriving DecidableEq, Repr

/-- A step definition that a file declares, with the steps that make it up. -/
structure DeclaredStep where
  type : StepType
  declaration : String
  location : Text.Location
  table : TableRule
  description : Option String
  /-- The declaration compiled beforehand. -/
  compiled : Option Pattern
  steps : List Step
  deriving DecidableEq, Repr

structure TestFile where
  name : String
  feature : Option Feature
  declared : List DeclaredStep
  deriving DecidableEq, Repr

namespace Feature

def steps (f : Feature) : List Step :=
  (f.background.map (·.steps)).getD [] ++ f.scenarios.flatMap (·.steps)

/-- Visits the steps of the background and then those of the scenarios. -/
def visitSteps {m : Type → Type} [Monad m] (visit : Step → m Step) (f : Feature) : m Feature := do
  let background ← f.background.mapM fun b => return { b with steps := ← b.steps.mapM visit }
  let scenarios ← f.scenarios.mapM fun s => return { s with steps := ← s.steps.mapM visit }
  return { f with background, scenarios }

end Feature

namespace TestFile

/-- Every step: the background, the scenarios in order, and the bodies of the declared steps. -/
def steps (f : TestFile) : List Step :=
  (f.feature.map (·.steps)).getD [] ++ f.declared.flatMap (·.steps)

/-- Visits the steps one after the other and puts what comes of each in its place. -/
def visitSteps {m : Type → Type} [Monad m] (visit : Step → m Step) (f : TestFile) :
    m TestFile := do
  let feature ← f.feature.mapM (·.visitSteps visit)
  let declared ← f.declared.mapM fun d => return { d with steps := ← d.steps.mapM visit }
  return { f with feature, declared }

end TestFile

/-! ## Writing steps in sequence -/

/-- A step as it is written, before its type is resolved. -/
structure WrittenStep where
  type : StepType
  text : String
  location : Text.Location
  table : Option Table
  deriving DecidableEq, Repr

/-- The steps of one list. A conjunction takes the type of the step before it in the list. -/
def WrittenStep.resolveAll (previous : Option StepType) : List WrittenStep → List Step
  | [] => []
  | w :: rest =>
    let (bindingType, next) := w.type.resolve previous
    .ofText w.type bindingType w.text w.location w.table :: resolveAll next rest

end StepLinker
