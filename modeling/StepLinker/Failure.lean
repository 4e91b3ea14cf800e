/-!
# Failures

What keeps a run from linking at all: settings or input files that are invalid.
-/

namespace StepLinker

/-- Why a file cannot be read as text. -/
inductive ReadFault where
  | notFound
  | isDirectory
  | notUtf8
  /-- Any other fault, as the system words it. -/
  | other (reason : String)
  deriving DecidableEq, Repr

def ReadFault.message : ReadFault → String
  | notFound => "No such file or directory (os error 2)"
  | isDirectory => "Is a directory (os error 21)"
  | notUtf8 => "stream did not contain valid UTF-8"
  | other reason => reason

inductive Failure where
  | invalidConfig (reason : String)
  | read (path : String) (fault : ReadFault)
  /-- The manifest is not JSON, or not of the form of a manifest. -/
  | manifest (path : String)
  | unknownStepType (path value : String)
  /-- The feature file is not Gherkin. -/
  | feature (path : String)
  deriving DecidableEq, Repr

def Failure.message : Failure → String
  | invalidConfig reason => s!"invalid configuration: {reason}"
  | read path fault => s!"failed to read {path}: {fault.message}"
  | manifest path => s!"invalid step manifest {path}"
  | unknownStepType path value => s!"unknown step type `{value}` in {path}"
  | feature path => s!"failed to parse feature file {path}"

end StepLinker
