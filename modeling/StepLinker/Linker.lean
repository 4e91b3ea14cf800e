import StepLinker.Argument
import StepLinker.LinkResult
import StepLinker.Refresh

/-!
# The linker

A linker holds the definitions of its registered sources and binds steps to them. A step is bound
when exactly one definition matches it; what is wrong with its arguments or its table is reported
but does not keep it from being bound.
-/

namespace StepLinker

structure LinkerOptions where
  /-- Warn about blank characters between a value and its quote marks. -/
  whitespaceWarnings : Bool
  deriving DecidableEq, Repr

def LinkerOptions.standard : LinkerOptions :=
  ⟨true⟩

/-- What a linker knows of a registered source. -/
structure Registration where
  name : String
  keys : Keyed Signature SlotKey
  deriving DecidableEq, Repr

structure Linker where
  tree : MatchingTree
  registered : Keyed String Registration
  options : LinkerOptions
  deriving Repr

structure NotRegistered where
  uid : String
  deriving DecidableEq, Repr

def NotRegistered.message (e : NotRegistered) : String :=
  s!"step definition source `{e.uid}` is not registered with the linker"

namespace Linker

def new (options : LinkerOptions) : Linker :=
  ⟨.empty, [], options⟩

def isRegistered (l : Linker) (uid : String) : Bool :=
  l.registered.contains uid

def sourceCount (l : Linker) : Nat :=
  l.registered.length

/-! ## Sources -/

/-- Removes a source with all its definitions. Returns how many there were. -/
def unregister (l : Linker) (uid : String) : Except NotRegistered Nat × Linker :=
  match l.registered.find? uid with
  | none => (.error ⟨uid⟩, l)
  | some r =>
    let (removed, tree) := Refresh.removeAll l.tree (r.keys.map (·.2))
    (.ok removed, { l with tree := tree, registered := l.registered.erase uid })

/-- Brings the tree in line with what the source supplies now. Definitions that it supplied before
keep their keys. -/
def refresh (l : Linker) (source : Source) : Outcome Summary Diagnostic × Linker :=
  let previous := ((l.registered.find? source.uid).map (·.keys)).getD []
  let r := Refresh.run l.tree previous source
  (⟨some r.summary, r.diagnostics⟩,
    { l with
      tree := r.tree
      registered := (l.registered.erase source.uid).insert source.uid ⟨source.name, r.current⟩ })

/-- Registers a source. What it may have registered before is dropped first. -/
def register (l : Linker) (source : Source) : Outcome Summary Diagnostic × Linker :=
  (l.unregister source.uid).2.refresh source

/-- Registers a source, or brings its definitions up to date if it is registered. A source whose
definitions do not change is registered anew. -/
def update (l : Linker) (source : Source) : Outcome Summary Diagnostic × Linker :=
  if source.kind.isUpdatable then l.refresh source else l.register source

/-! ## Binding a step -/

/-- A table that is missing or that the definition does not take. -/
def tableFinding? (d : Definition) (step : Step) : Option (Cause × Text.Range) :=
  match d.table, step.table with
  | .required, none => some (.tableRequired d.declaration, step.range)
  | .notSupported, some table =>
    some (.tableNotSupported d.declaration, .point table.location)
  | _, _ => none

def matching (l : Linker) (step : Step) : List Match :=
  (l.tree.search step.bindingType step.statement false).filter (·.exact)

/-- The binding of a step and what is wrong with it. -/
def verdict (l : Linker) (step : Step) : Option Binding × List (Cause × Text.Range) :=
  match l.matching step with
  | [] => (none, [(.noMatchingDefinition step.text, step.range)])
  | [found] =>
    (some ⟨found.definition, found.arguments.map (·.bind step.statement)⟩,
      found.arguments.flatMap (·.findings step l.options.whitespaceWarnings) ++
        (tableFinding? found.definition step).toList)
  | several =>
    let definitions := several.map fun m => (m.definition.source, m.definition.declaration)
    (none, [(.multipleMatchingDefinitions step.text definitions, step.range)])

/-- Binds a step, whatever it was bound to before. `source` is the file to name in diagnostics. -/
def bind (l : Linker) (source : Option String) (step : Step) : Step × List Diagnostic :=
  let (binding, findings) := l.verdict step
  ({ step with binding := binding }, findings.map fun (cause, range) => ⟨source, cause, range⟩)

/-! ## Linking files -/

/-- Binds a step of the file and records what became of it. -/
def linkStep (l : Linker) (name : String) (step : Step) : StateM LinkResult Step := do
  let (step, messages) := l.bind name step
  modify (·.record (step.binding.map (·.definition.source)) messages)
  return step

/-- Binds every step of the file, one after the other. -/
def link (l : Linker) (file : TestFile) : TestFile × LinkResult :=
  (file.visitSteps (l.linkStep file.name)).run (.new file.name)

/-- Links the files in order, or none of them once the work is cancelled. -/
def linkAll (l : Linker) (files : List TestFile) (cancelled : Bool) :
    List (TestFile × LinkResult) :=
  if cancelled then [] else files.map l.link

/-! ## Queries -/

/-- The definitions that the text matches or, if partial matches are allowed, may begin. -/
def search (l : Linker) (type : StepType) (text : String) (allowPartial : Bool) : List Match :=
  l.tree.search type (.ofText text) allowPartial

def completions (l : Linker) (type : StepType) (text : String) : List Match :=
  l.tree.completions type (.ofText text)

end Linker

end StepLinker
