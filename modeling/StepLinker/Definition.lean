import StepLinker.Declaration.Pattern
import StepLinker.StepType
import StepLinker.Text.Location

/-!
# Step definitions

A definition says which statements a step may make: its type, its declaration, whether it takes a
table, and the source it belongs to. What else it holds depends on where it comes from
(`DefinitionKind`), and so does what makes two definitions the same (`isSame`).
-/

namespace StepLinker

inductive TableRule where
  | optional
  | required
  | notSupported
  deriving DecidableEq, Repr

inductive DefinitionKind where
  /-- Declared in a file, with the free text under the declaration. -/
  | file (location : Text.Location) (description : Option String)
  /-- Run by a handler, which reports a failure or succeeds. -/
  | native (handler : String) (failure : Option String)
  /-- Generated for components, with values for the placeholders of the generator. -/
  | interaction (components : List String) (values : List (String × String))
  deriving DecidableEq, Repr

structure Definition where
  /-- The name of the source the definition belongs to. -/
  source : String
  type : StepType
  declaration : String
  table : TableRule
  kind : DefinitionKind
  /-- A pattern compiled beforehand, which then stands for the declaration. -/
  compiled : Option Pattern
  deriving DecidableEq, Repr

/-- What a source tells its definitions apart by. -/
structure Signature where
  type : StepType
  declaration : String
  deriving DecidableEq, Repr

/-- Signatures go by type and then by the code points of the declaration. -/
def Signature.compare (a b : Signature) : Ordering :=
  (Ord.compare a.type.order b.type.order).then (Ord.compare a.declaration b.declaration)

inductive DefinitionError where
  | invalidDeclaration (error : DeclarationError)
  /-- A conjunction has no phase of its own. -/
  | unboundType (type : StepType)
  deriving DecidableEq, Repr

def DefinitionError.message : DefinitionError → String
  | invalidDeclaration e => e.message
  | unboundType type => s!"step definitions cannot use the `{type.keyword}` keyword"

inductive InvocationError where
  | notInvocable (declaration : String)
  | failed (reason : String)
  deriving DecidableEq, Repr

def InvocationError.message : InvocationError → String
  | notInvocable declaration => s!"step definition `{declaration}` has no native handler"
  | failed reason => s!"step handler failed: {reason}"

namespace Definition

def signature (d : Definition) : Signature :=
  ⟨d.type, d.declaration⟩

/-- Where the declaration stands, for a definition from a file. -/
def location? (d : Definition) : Option Text.Location :=
  match d.kind with
  | .file location _ => some location
  | _ => none

def pattern (d : Definition) : Except DeclarationError Pattern :=
  match d.compiled with
  | some p => .ok p
  | none => Pattern.ofDeclaration d.declaration

/-- Whether two definitions are versions of one. Definitions from files agree on source, type and
declaration, native ones on handler, type and declaration, generated ones on source, declaration
and components. Definitions of different kinds are never the same. -/
def isSame (a b : Definition) : Bool :=
  match a.kind, b.kind with
  | .file _ _, .file _ _ =>
    a.source = b.source && a.type = b.type && a.declaration = b.declaration
  | .native h _, .native k _ => h = k && a.type = b.type && a.declaration = b.declaration
  | .interaction cs _, .interaction ds _ =>
    a.source = b.source && a.declaration = b.declaration && cs = ds
  | _, _ => false

def invoke (d : Definition) : Except InvocationError Unit :=
  match d.kind with
  | .native _ none => .ok ()
  | .native _ (some reason) => .error (.failed reason)
  | _ => .error (.notInvocable d.declaration)

end Definition

end StepLinker
