import StepLinker.Diagnostic
import StepLinker.Wording.Template

/-!
# Languages

The languages that messages can be written in, and the wording of every message in each.
-/

namespace StepLinker

inductive Language where
  | english
  | french
  deriving DecidableEq, Repr

namespace Language

def tag : Language → String
  | english => "en-US"
  | french => "fr"

def englishTemplate : Code → Template
  | .declarationInvalid =>
    [.text "The step definition `", .argument "declaration", .text "` could not be compiled: ",
      .argument "reason"]
  | .noMatchingDefinition =>
    [.text "No step definitions could be found that match `", .argument "step", .text "`."]
  | .multipleMatchingDefinitions =>
    [.text "There are ", .argument "count", .text " step definitions that match `",
      .argument "step", .text "`: ", .argument "definitions"]
  | .valueRequired =>
    [.text "The ", .argument "hint", .text " argument `", .argument "name",
      .text "` requires a value."]
  | .typeNotCompatible =>
    [.text "The value `", .argument "value", .text "` cannot be used for the ", .argument "hint",
      .text " argument `", .argument "name", .text "`."]
  | .surroundingWhitespace =>
    [.text "The value of argument `", .argument "name",
      .text "` has whitespace between it and its quotes; the whitespace is ignored."]
  | .tableRequired =>
    [.text "The step definition `", .argument "declaration",
      .text "` requires a table, but this step has none."]
  | .tableNotSupported =>
    [.text "The step definition `", .argument "declaration", .text "` does not accept a table."]

def frenchTemplate : Code → Template
  | .declarationInvalid =>
    [.text "La définition d'étape « ", .argument "declaration",
      .text " » n'a pas pu être compilée : ", .argument "reason"]
  | .noMatchingDefinition =>
    [.text "Aucune définition d'étape ne correspond à « ", .argument "step", .text " »."]
  | .multipleMatchingDefinitions =>
    [.argument "count", .text " définitions d'étapes correspondent à « ", .argument "step",
      .text " » : ", .argument "definitions"]
  | .valueRequired =>
    [.text "L'argument ", .argument "hint", .text " « ", .argument "name",
      .text " » exige une valeur."]
  | .typeNotCompatible =>
    [.text "La valeur « ", .argument "value", .text " » ne convient pas à l'argument ",
      .argument "hint", .text " « ", .argument "name", .text " »."]
  | .surroundingWhitespace =>
    [.text "La valeur de l'argument « ", .argument "name",
      .text " » est séparée de ses guillemets par des espaces ; ces espaces sont ignorés."]
  | .tableRequired =>
    [.text "La définition d'étape « ", .argument "declaration",
      .text " » exige un tableau, mais cette étape n'en a pas."]
  | .tableNotSupported =>
    [.text "La définition d'étape « ", .argument "declaration",
      .text " » n'accepte pas de tableau."]

def template : Language → Code → Template
  | english => englishTemplate
  | french => frenchTemplate

/-- The text kept under `id`, with its gaps filled. -/
def text (language : Language) (id : String) (arguments : List (String × String)) : String :=
  stripIsolates <|
    match Code.ofId? id with
    | some code => (language.template code).fill arguments
    | none => "No localization for id: \"" ++ id ++ "\""

def message (language : Language) (d : Diagnostic) : Message where
  source := d.source
  code := d.cause.code
  text := language.text d.cause.code.id d.cause.arguments
  range := d.range

end Language

end StepLinker
