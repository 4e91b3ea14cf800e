/-!
# Terminated lines

The text of a list of lines, each of which a line feed ends.
-/

namespace StepLinker.Text

def terminateLines (lines : List String) : String :=
  String.join (lines.map (· ++ "\n"))

end StepLinker.Text
