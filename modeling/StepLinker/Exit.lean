import StepLinker.CommandLine.Command
import StepLinker.CommandLine.Help

/-!
# How a run ends

The exit code is 0 if all steps are bound without an error, 1 if there are errors to report, and 2
if there is nothing to report because the command line, the settings or a file are invalid.
-/

namespace StepLinker

/-- How a run of the program ends: its exit code, what it writes, and what it complains about. -/
structure Exit where
  code : UInt32
  output : String
  complaint : Option String
  deriving DecidableEq, Repr

namespace Exit

def refused (complaint : String) : Exit :=
  ⟨2, "", some complaint⟩

/-- The end of a run in an environment where files are read by `read`. -/
def ofCommand (environment : String → Option String) (read : FileReader) :
    Except UsageError Command → Exit
  | .error e => refused e.message
  | .ok .version => ⟨0, Help.version, none⟩
  | .ok (.help long) => ⟨0, Help.text long, none⟩
  | .ok (.link a) =>
    match do a.request.run read (← a.settings environment) with
    | .error e => refused e.message
    | .ok (success, output) => ⟨if success then 0 else 1, output, none⟩

end Exit

end StepLinker
