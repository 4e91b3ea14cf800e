import StepLinker.FileTree
import StepLinker.Gherkin.Conversion
import StepLinker.Manifest
import StepLinker.Report
import StepLinker.Settings

/-!
# Link runs

One run of the program: register the manifests in order, read all feature files, link them and
write the report. A file that cannot be read or understood ends the run before anything is linked.
-/

namespace StepLinker

structure LinkRequest where
  /-- The paths of the step manifests. -/
  manifests : List String
  /-- The paths of the feature files. -/
  features : List String
  format : ReportFormat
  deriving DecidableEq, Repr

namespace LinkRequest

/-- The test file at the path, read by `parse`. -/
def load (read : FileReader) (parse : String → String → Except Failure TestFile)
    (path : String) : Except Failure TestFile :=
  match read path with
  | .ok text => parse path text
  | .error fault => .error (.read path fault)

def register (read : FileReader) (l : Linker) :
    List String → Except Failure (List Diagnostic × Linker)
  | [] => .ok ([], l)
  | path :: rest => do
    let file ← load read Manifest.read path
    let (outcome, l) := l.register (.ofFile file)
    let (more, l) ← register read l rest
    return (outcome.messages ++ more, l)

def report (read : FileReader) (settings : Settings) (request : LinkRequest) :
    Except Failure Report := do
  let (registration, l) ← register read (.new settings.linkerOptions) request.manifests
  let files ← request.features.mapM (load read Gherkin.read)
  return ⟨registration, (l.linkAll files false).map (·.2)⟩

/-- Whether the run succeeds, and what it writes. -/
def run (read : FileReader) (settings : Settings) (request : LinkRequest) :
    Except Failure (Bool × String) := do
  let report ← request.report read settings
  return (report.success, report.write .english request.format)

end LinkRequest

end StepLinker
