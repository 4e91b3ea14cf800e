import StepLinker.TestFile

/-!
# Sources of step definitions

A source supplies definitions under its own name: handlers, the declarations of a file, or steps
generated for components. Registering a source again under the same identity replaces it. Files and
generated steps change while they are registered, so they can also be updated.
-/

namespace StepLinker

inductive SourceKind where
  | native
  | file
  | interaction
  deriving DecidableEq, Repr

/-- Whether the definitions of a registered source may change. Handlers are there for good. -/
def SourceKind.isUpdatable : SourceKind → Bool
  | native => false
  | file => true
  | interaction => true

structure Source where
  kind : SourceKind
  uid : String
  /-- The name that messages show. -/
  name : String
  definitions : List Definition
  deriving DecidableEq, Repr

structure NativeStep where
  type : StepType
  declaration : String
  handler : String
  table : TableRule
  /-- What the handler reports if it fails. -/
  failure : Option String
  deriving DecidableEq, Repr

/-- A step generated for components. -/
structure InteractionStep where
  type : StepType
  declaration : String
  components : List String
  values : List (String × String)
  table : TableRule
  deriving DecidableEq, Repr

namespace Source

def native (uid name : String) (steps : List NativeStep) : Source where
  kind := .native
  uid := uid
  name := name
  definitions := steps.map fun s =>
    ⟨uid, s.type, s.declaration, s.table, .native s.handler s.failure, none⟩

/-- The definitions that a file declares. The file's name is the identity of the source. -/
def ofFile (file : TestFile) : Source where
  kind := .file
  uid := file.name
  name := file.name
  definitions := file.declared.map fun d =>
    ⟨file.name, d.type, d.declaration, d.table, .file d.location d.description, d.compiled⟩

def interaction (uid name : String) (steps : List InteractionStep) : Source where
  kind := .interaction
  uid := uid
  name := name
  definitions := steps.map fun s =>
    ⟨uid, s.type, s.declaration, s.table, .interaction s.components s.values, none⟩

end Source

end StepLinker
