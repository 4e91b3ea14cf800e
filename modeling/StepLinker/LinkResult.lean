import StepLinker.Diagnostic
import StepLinker.TestFile

/-!
# The result of linking

What a file's steps came to: everything reported about them, in order, and which sources the file
depends on. A file has to be linked again when one of those sources changes.
-/

namespace StepLinker

structure LinkResult where
  name : String
  diagnostics : List Diagnostic
  /-- The sources of the definitions that steps are bound to, in order and without repeats. -/
  referenced : List String
  bound : Nat
  total : Nat
  deriving DecidableEq, Repr

namespace LinkResult

def success (r : LinkResult) : Bool :=
  succeeds r.diagnostics

def new (name : String) : LinkResult :=
  ⟨name, [], [], 0, 0⟩

/-- Puts a source where it belongs among those that are there, if it is not one of them. -/
def insertSource (source : String) : List String → List String
  | [] => [source]
  | first :: rest =>
    if source < first then source :: first :: rest
    else if source = first then first :: rest
    else first :: insertSource source rest

/-- The result with one step more, bound to a definition of the source, if it is bound. -/
def record (r : LinkResult) (source? : Option String) (messages : List Diagnostic) : LinkResult :=
  let r := { r with diagnostics := r.diagnostics ++ messages, total := r.total + 1 }
  match source? with
  | none => r
  | some source => { r with referenced := insertSource source r.referenced, bound := r.bound + 1 }

end LinkResult

end StepLinker
