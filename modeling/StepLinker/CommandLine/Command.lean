import StepLinker.CommandLine.Word
import StepLinker.LinkRun

/-!
# Commands

What the words of a command line amount to. They are read from left to right, and the value of an
option may be the word after it. All operands are feature files, and so is every word after a bare
`--`. Asking for the version or for help ends the reading at once, and so does the first mistake.
-/

namespace StepLinker

/-- What has been read of a command line. -/
structure Arguments where
  manifests : List String
  features : List String
  format : Option ReportFormat
  logLevel : Option LogLevel
  noWhitespaceWarnings : Bool
  deriving DecidableEq, Repr

/-- What a command line asks for. -/
inductive Command where
  | link (arguments : Arguments)
  | help (long : Bool)
  | version
  deriving DecidableEq, Repr

namespace Arguments

def empty : Arguments :=
  ⟨[], [], none, none, false⟩

def addFeature (a : Arguments) (path : String) : Except UsageError Arguments :=
  if path.isEmpty then .error .featureEmpty
  else .ok { a with features := a.features ++ [path] }

/-- Gives an option its value. Only manifests may be given more than once. -/
def set (a : Arguments) (option : ValueOption) (value : String) : Except UsageError Arguments :=
  match option with
  | .steps =>
    if value.isEmpty then .error (.valueMissing .steps)
    else .ok { a with manifests := a.manifests ++ [value] }
  | .format =>
    match a.format, ReportFormat.ofName? value with
    | some _, _ => .error (.optionRepeated option.name)
    | none, none => .error (.valueInvalid .format value)
    | none, some format => .ok { a with format := format }
  | .logLevel =>
    match a.logLevel, LogLevel.ofText value with
    | some _, _ => .error (.optionRepeated option.name)
    | none, .error _ => .error (.valueInvalid .logLevel value)
    | none, .ok level => .ok { a with logLevel := level }

def forbidWarnings (a : Arguments) : Except UsageError Arguments :=
  if a.noWhitespaceWarnings then .error (.optionRepeated "--no-whitespace-warnings")
  else .ok { a with noWhitespaceWarnings := true }

def finish (a : Arguments) : Except UsageError Command :=
  if a.features.isEmpty then .error .featureMissing else .ok (.link a)

/-- The paths of all files that a run with these arguments reads. -/
def paths (a : Arguments) : List String :=
  a.manifests ++ a.features

def request (a : Arguments) : LinkRequest :=
  ⟨a.manifests, a.features, a.format.getD .text⟩

/-- The settings of the environment with what the arguments choose instead. -/
def settings (a : Arguments) (environment : String → Option String) : Except Failure Settings := do
  let settings ← Settings.ofEnvironment environment
  return settings.override a.logLevel (if a.noWhitespaceWarnings then some false else none)

end Arguments

namespace Command

/-- Reads the words that come after those that make up `a`. -/
def readFrom (a : Arguments) : List String → Except UsageError Command
  | [] => a.finish
  | word :: rest =>
    match Word.ofText word with
    | .operand path => do readFrom (← a.addFeature path) rest
    | .terminator => do (← rest.foldlM Arguments.addFeature a).finish
    | .noWhitespaceWarnings => do readFrom (← a.forbidWarnings) rest
    | .help long => .ok (.help long)
    | .version => .ok .version
    | .invalid error => .error error
    | .valued option (some value) => do readFrom (← a.set option value) rest
    | .valued option none =>
      match rest with
      | [] => .error (.valueMissing option)
      | value :: rest =>
        if Word.isValue value then do readFrom (← a.set option value) rest
        else .error (.valueMissing option)

def ofWords (words : List String) : Except UsageError Command :=
  readFrom .empty words

end Command

end StepLinker
