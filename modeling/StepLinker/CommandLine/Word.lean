/-!
# Words of a command line

A word that begins with a hyphen names an option, by a letter or by its long name; the value of an
option may stand in the same word. All other words are operands. A hyphen alone is an operand too.
-/

namespace StepLinker

inductive ValueOption where
  | steps
  | format
  | logLevel
  deriving DecidableEq, Repr

def ValueOption.name : ValueOption → String
  | steps => "--steps <MANIFEST>"
  | format => "--format <FORMAT>"
  | logLevel => "--log-level <LOG_LEVEL>"

/-- What is wrong with a command line. -/
inductive UsageError where
  | unknownOption (word : String)
  | valueMissing (option : ValueOption)
  | valueInvalid (option : ValueOption) (value : String)
  /-- A value is given to an option that takes none. -/
  | valueUnexpected (option value : String)
  | optionRepeated (option : String)
  | featureEmpty
  | featureMissing
  deriving DecidableEq, Repr

namespace UsageError

def message : UsageError → String
  | unknownOption word => s!"unexpected argument '{word}' found"
  | valueMissing option =>
    s!"a value is required for '{option.name}' but none was supplied"
  | valueInvalid option value => s!"invalid value '{value}' for '{option.name}'"
  | valueUnexpected option value =>
    s!"unexpected value '{value}' for '{option}' found; no more were expected"
  | optionRepeated option => s!"the argument '{option}' cannot be used multiple times"
  | featureEmpty => "a value is required for '<FEATURE>...' but none was supplied"
  | featureMissing =>
    "the following required arguments were not provided:\n  <FEATURE>..."

end UsageError

inductive Word where
  | operand (text : String)
  /-- After this word there are no more options. -/
  | terminator
  /-- An option that takes a value, with the value if it stands in the same word. -/
  | valued (option : ValueOption) (value : Option String)
  | noWhitespaceWarnings
  | help (long : Bool)
  | version
  /-- No option, or one that is given a value and takes none. -/
  | invalid (error : UsageError)
  deriving DecidableEq, Repr

namespace Word

/-- The word that the name of an option and the value after the equals sign make up. -/
def ofName (word name : String) (value : Option String) : Word :=
  match name, value with
  | "steps", value => .valued .steps value
  | "format", value => .valued .format value
  | "log-level", value => .valued .logLevel value
  | "no-whitespace-warnings", none => .noWhitespaceWarnings
  | "help", none => .help true
  | "version", none => .version
  | name, some value =>
    if ["no-whitespace-warnings", "help", "version"].contains name then
      .invalid (.valueUnexpected word value)
    else .invalid (.unknownOption word)
  | _, none => .invalid (.unknownOption word)

/-- The value that stands in the same word as the letter of an option. An equals sign may divide
them. -/
def attached : List Char → Option String
  | [] => none
  | '=' :: value => some (String.ofList value)
  | value => some (String.ofList value)

def ofText (text : String) : Word :=
  match text.toList with
  | ['-', '-'] => .terminator
  | '-' :: '-' :: long =>
    let name := String.ofList (long.takeWhile (· ≠ '='))
    match long.dropWhile (· ≠ '=') with
    | [] => ofName text name none
    | _ :: value => ofName text name (some (String.ofList value))
  | '-' :: 's' :: rest => .valued .steps (attached rest)
  | '-' :: 'h' :: _ => .help false
  | '-' :: 'V' :: _ => .version
  | '-' :: _ :: _ => .invalid (.unknownOption text)
  | _ => .operand text

/-- Whether a word may be the value of the option before it. A hyphen alone may. -/
def isValue (text : String) : Bool :=
  match text.toList with
  | '-' :: _ :: _ => false
  | _ => true

end Word

end StepLinker
