import StepLinker.Failure
import StepLinker.Linker

/-!
# Settings

What a user can set for a run, in environment variables or on the command line; the command line
wins.
-/

namespace StepLinker

inductive LogLevel where
  | trace
  | debug
  | info
  | warn
  | error
  deriving DecidableEq, Repr

namespace LogLevel

def name : LogLevel → String
  | trace => "trace"
  | debug => "debug"
  | info => "info"
  | warn => "warn"
  | error => "error"

/-- The level a word names. No letter outside ASCII has a small letter of one of these words, so
only the case of ASCII letters matters. -/
def ofText (text : String) : Except Failure LogLevel :=
  match text.toLower with
  | "trace" => .ok trace
  | "debug" => .ok debug
  | "info" => .ok info
  | "warn" => .ok warn
  | "warning" => .ok warn
  | "error" => .ok error
  | _ =>
    .error <| .invalidConfig <|
      s!"unknown log level '{text}', expected one of: trace, debug, info, warn, error"

end LogLevel

structure Settings where
  logLevel : LogLevel
  whitespaceWarnings : Bool
  deriving DecidableEq, Repr

namespace Settings

def standard : Settings :=
  ⟨.info, true⟩

def logLevelVariable : String := "AUTOSTEP_LOG_LEVEL"

def whitespaceVariable : String := "AUTOSTEP_WHITESPACE_WARNINGS"

/-- The truth value of the variable `name`. As with log levels, only ASCII letters have a case
that matters. -/
def flag (name text : String) : Except Failure Bool :=
  if ["1", "true", "yes", "on"].contains text.toLower then .ok true
  else if ["0", "false", "no", "off"].contains text.toLower then .ok false
  else .error (.invalidConfig s!"invalid value '{text}' for {name}, expected true or false")

def ofEnvironment (lookup : String → Option String) : Except Failure Settings := do
  let logLevel ←
    match lookup logLevelVariable with
    | some text => LogLevel.ofText text
    | none => .ok standard.logLevel
  let whitespaceWarnings ←
    match lookup whitespaceVariable with
    | some text => flag whitespaceVariable text
    | none => .ok standard.whitespaceWarnings
  return ⟨logLevel, whitespaceWarnings⟩

/-- The settings with what has been chosen instead. -/
def override (s : Settings) (logLevel : Option LogLevel) (whitespaceWarnings : Option Bool) :
    Settings :=
  ⟨logLevel.getD s.logLevel, whitespaceWarnings.getD s.whitespaceWarnings⟩

def linkerOptions (s : Settings) : LinkerOptions :=
  ⟨s.whitespaceWarnings⟩

end Settings

end StepLinker
