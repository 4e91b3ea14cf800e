import StepLinker.Exit

/-!
# The program

Reads the command line, the environment and the files, and leaves all else to `Exit.ofCommand`.
-/

namespace StepLinker

def readFile (path : String) : IO (Except ReadFault String) := do
  try
    return decodeUtf8 (← IO.FS.readBinFile path)
  catch
    | .noFileOrDirectory .. => return .error .notFound
    | .inappropriateType .. => return .error .isDirectory
    | e => return .error (.other (toString e))

def readFiles (paths : List String) : IO FileReader := do
  let files ← paths.mapM fun path => return (path, ← readFile path)
  return fun path => (files.lookup path).getD (.error .notFound)

/-- The variables that settings can be made in. -/
def readEnvironment : IO (String → Option String) := do
  let names := [Settings.logLevelVariable, Settings.whitespaceVariable]
  let values ← names.mapM fun name => return (name, ← IO.getEnv name)
  return fun name => (values.lookup name).join

end StepLinker

def main (words : List String) : IO UInt32 := do
  let command := StepLinker.Command.ofWords words
  let read ←
    match command with
    | .ok (.link a) => StepLinker.readFiles a.paths
    | _ => StepLinker.readFiles []
  let exit := StepLinker.Exit.ofCommand (← StepLinker.readEnvironment) read command
  IO.print exit.output
  if let some complaint := exit.complaint then
    IO.eprintln ("error: " ++ complaint)
  return exit.code
