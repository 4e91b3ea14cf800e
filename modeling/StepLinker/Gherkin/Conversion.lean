import StepLinker.Failure
import StepLinker.Gherkin.Grammar
import StepLinker.TestFile
import StepLinker.Text.LineIndex

/-!
# From Gherkin documents to test files

Offsets become lines and columns, and rules disappear: their scenarios follow those of the feature.
The background of a rule becomes a scenario of its own, so that its steps are linked once. A step
is placed where its text first occurs at or behind its offset.
-/

namespace StepLinker.Gherkin

open Text (LineIndex)

/-- The table, placed at its first bar. -/
def Table.convert (index : LineIndex) (t : Table) : StepLinker.Table :=
  let rows := t.cut.rows
  { location := (index.find? t.offset ['|']).getD (index.location t.offset)
    header := rows.headD []
    rows := rows.tail }

/-- The step as it is written. A keyword that is not English counts by its phase, so a conjunction
in another language is not seen as one. -/
def Step.convert (index : LineIndex) (s : Step) : WrittenStep where
  type :=
    match StepType.ofKeyword s.keyword with
    | .ok type => type
    | .error _ => .phase s.phase
  text := s.text
  location := (index.find? s.offset s.text.toList).getD (index.location s.offset)
  table := s.table.map (·.convert index)

def convertSteps (index : LineIndex) (steps : List Step) : List StepLinker.Step :=
  WrittenStep.resolveAll none (steps.map (·.convert index))

def Scenario.convert (index : LineIndex) (s : Scenario) : StepLinker.Scenario where
  name := s.name
  location := index.location s.offset
  steps := convertSteps index s.steps
  examples := s.examples.map fun e =>
    ⟨index.location e.offset, e.table.map (·.convert index)⟩

/-- The scenarios of a rule, with its background in front. -/
def Rule.convert (index : LineIndex) (r : Rule) : List StepLinker.Scenario :=
  let background := r.background.toList.map fun b =>
    { name := r.name ++ " (background)"
      location := index.location b.offset
      steps := convertSteps index b.steps
      examples := [] }
  background ++ r.scenarios.map (·.convert index)

def Document.convert (index : LineIndex) (d : Document) : Feature where
  name := d.name
  location := index.location d.offset
  description := d.description
  background := d.background.map fun b => ⟨index.location b.offset, convertSteps index b.steps⟩
  scenarios := d.scenarios.map (·.convert index) ++ d.rules.flatMap (·.convert index)

def terminated (cs : List Char) : List Char :=
  if cs.getLast? = some '\n' then cs else cs ++ ['\n']

def read (path text : String) : Except Failure TestFile :=
  let cs := terminated text.toList
  match Document.ofText? cs with
  | none => .error (.feature path)
  | some d => .ok ⟨path, some (d.convert (.ofText cs)), []⟩

end StepLinker.Gherkin
