import StepLinker.Json.Value
import StepLinker.LinkResult
import StepLinker.Text.Lines
import StepLinker.Wording.Language

/-!
# Reports

What a run found: what was reported while manifests were registered, and the result for each
feature file. A report is written as text, one line for each message and a summary for each file,
or as a JSON document.
-/

namespace StepLinker

inductive ReportFormat where
  | text
  | json
  deriving DecidableEq, Repr

def ReportFormat.ofName? : String → Option ReportFormat
  | "text" => some text
  | "json" => some json
  | _ => none

structure Report where
  registration : List Diagnostic
  files : List LinkResult
  deriving DecidableEq, Repr

def Message.toJson (m : Message) : Json.Value :=
  .object
    [("sourceName", (m.source.map .string).getD .null),
      ("level", .string m.code.level.name),
      ("code", .ofNat m.code.number),
      ("text", .string m.text),
      ("startLine", .ofNat m.range.start.line),
      ("startColumn", .ofNat m.range.start.column),
      ("endLine", .ofNat m.range.stop.line),
      ("endColumn", .ofNat m.range.stop.column)]

namespace LinkResult

def summary (r : LinkResult) : String :=
  s!"{r.name}: {r.bound}/{r.total} steps bound"

def toJson (language : Language) (r : LinkResult) : Json.Value :=
  .object
    [("source", .string r.name),
      ("success", .bool r.success),
      ("boundSteps", .ofNat r.bound),
      ("totalSteps", .ofNat r.total),
      ("referencedSources", .array (r.referenced.map .string)),
      ("messages", .array (r.diagnostics.map fun d => (language.message d).toJson))]

end LinkResult

namespace Report

/-- Whether neither registering nor linking reported an error. -/
def success (r : Report) : Bool :=
  succeeds r.registration && r.files.all (·.success)

def lines (language : Language) (r : Report) : List String :=
  let messages (ds : List Diagnostic) := ds.map fun d => (language.message d).line
  messages r.registration ++ r.files.flatMap fun f => messages f.diagnostics ++ [f.summary]

def toJson (language : Language) (r : Report) : Json.Value :=
  .object
    [("success", .bool r.success),
      ("definitionMessages",
        .array (r.registration.map fun d => (language.message d).toJson)),
      ("files", .array (r.files.map (·.toJson language)))]

/-- The written report. Every line of it is terminated. -/
def write (language : Language) (format : ReportFormat) (r : Report) : String :=
  match format with
  | .text => Text.terminateLines (r.lines language)
  | .json => (r.toJson language).pretty 0 ++ "\n"

end Report

end StepLinker
