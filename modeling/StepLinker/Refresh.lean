import StepLinker.Diagnostic
import StepLinker.Keyed
import StepLinker.Source

/-!
# Refreshing a source

Bringing the tree in line with what a source supplies now. A definition whose signature the source
supplied before is replaced under its old key; a new signature is added; one that is no longer
supplied is removed at the end. A definition that cannot be added is reported and otherwise
ignored.
-/

namespace StepLinker

/-- How many definitions a refresh changed. -/
structure Summary where
  added : Nat
  updated : Nat
  removed : Nat
  rejected : Nat
  deriving DecidableEq, Repr

structure Refresh where
  tree : MatchingTree
  /-- The keys from before that have not been supplied again. -/
  previous : Keyed Signature SlotKey
  /-- The keys of what has been supplied so far. -/
  current : Keyed Signature SlotKey
  summary : Summary
  diagnostics : List Diagnostic
  deriving Repr

namespace Refresh

def start (tree : MatchingTree) (previous : Keyed Signature SlotKey) : Refresh :=
  ⟨tree, previous, [], ⟨0, 0, 0, 0⟩, []⟩

/-- What to report about a definition that cannot be added. -/
def rejection (name : String) (d : Definition) (error : DefinitionError) : Diagnostic where
  source := name
  cause := .declarationInvalid d.declaration error
  range := (d.location?.map (.ofText · d.declaration)).getD .unknown

def reject (r : Refresh) (name : String) (d : Definition) (error : DefinitionError) : Refresh :=
  { r with
    summary := { r.summary with rejected := r.summary.rejected + 1 }
    diagnostics := r.diagnostics ++ [rejection name d error] }

/-- The key under which the signature is known, from before or from earlier in this refresh. -/
def keyOf? (r : Refresh) (s : Signature) : Option SlotKey :=
  (r.previous.find? s).or (r.current.find? s)

/-- Puts the definition in the place of the one with its signature, if there is one. -/
def update? (r : Refresh) (d : Definition) : Option Refresh :=
  match r.keyOf? d.signature with
  | none => none
  | some k =>
    match r.tree.replace k d with
    | (none, _) => none
    | (some _, tree) =>
      some { r with
        tree := tree
        previous := r.previous.erase d.signature
        current := r.current.insert d.signature k
        summary := { r.summary with updated := r.summary.updated + 1 } }

def add (r : Refresh) (name : String) (d : Definition) : Refresh :=
  let r := { r with previous := r.previous.erase d.signature }
  match r.tree.addOrUpdate d with
  | (.error e, tree) => { r with tree := tree }.reject name d e
  | (.ok k, tree) =>
    { r with
      tree := tree
      current := r.current.insert d.signature k
      summary := { r.summary with added := r.summary.added + 1 } }

/-- Takes in one definition that the source, shown as `name`, supplies. -/
def supply (name : String) (r : Refresh) (d : Definition) : Refresh :=
  match d.pattern with
  | .error e => r.reject name d (.invalidDeclaration e)
  | .ok _ => (r.update? d).getD (r.add name d)

/-- Removes the definitions under the keys. Returns how many there were. -/
def removeAll (tree : MatchingTree) : List SlotKey → Nat × MatchingTree
  | [] => (0, tree)
  | k :: rest =>
    let (removed, tree) := tree.remove k
    let (n, tree) := removeAll tree rest
    (n + removed.isSome.toNat, tree)

def finish (r : Refresh) : Refresh :=
  let (removed, tree) := removeAll r.tree (r.previous.map (·.2))
  { r with tree := tree, previous := [], summary := { r.summary with removed := removed } }

def run (tree : MatchingTree) (previous : Keyed Signature SlotKey) (source : Source) : Refresh :=
  (source.definitions.foldl (supply source.name) (start tree previous)).finish

end Refresh

end StepLinker
