import StepLinker.Declaration.Specificity
import StepLinker.Definition
import StepLinker.Tree.Walk

/-!
# The matching tree

All definitions of a linker: a slot map with an entry for each of them, and a forest in which the
key of an entry stands at the node to which the edges of its pattern lead. An entry remembers its
node, and keeps it when its definition is replaced.
-/

namespace StepLinker

structure Entry where
  definition : Definition
  node : SlotKey
  specificity : Specificity
  deriving DecidableEq, Repr

structure MatchingTree where
  forest : Forest
  definitions : SlotMap Entry
  deriving Repr

/-- The tokens that stand for one placeholder of a matched definition. -/
structure ArgumentMatch where
  placeholder : Placeholder
  span : Span
  deriving DecidableEq, Repr

/-- A definition that a statement matches, or of which it may be the beginning. -/
structure Match where
  key : SlotKey
  definition : Definition
  /-- The arguments in the order of the declaration. A partial match may have fewer than there are
  placeholders. -/
  arguments : List ArgumentMatch
  exact : Bool
  /-- The number of words matched. -/
  literals : Nat
  specificity : Specificity
  deriving DecidableEq, Repr

namespace MatchingTree

def empty : MatchingTree :=
  ⟨.empty, .empty⟩

def definitionCount (t : MatchingTree) : Nat :=
  t.definitions.size

def nodeCount (t : MatchingTree) : Nat :=
  t.forest.nodes.size

def get? (t : MatchingTree) (k : SlotKey) : Option Definition :=
  (t.definitions.get? k).map (·.definition)

def definitionsOf (t : MatchingTree) (source : String) : List Definition :=
  (t.definitions.entries.map (·.2.definition)).filter (·.source = source)

/-- The key at the node that holds another version of `d` from the same source. -/
def findAt (t : MatchingTree) (id : SlotKey) (d : Definition) : Option SlotKey :=
  ((t.forest.node? id).map (·.definitions)).bind fun keys =>
    keys.find? fun k => (t.get? k).any fun other => other.source = d.source && other.isSame d

/-- Puts `d` in the place of the definition under the key, with its own specificity. -/
def put (t : MatchingTree) (k : SlotKey) (d : Definition) (specificity : Specificity) :
    MatchingTree :=
  { t with definitions := t.definitions.modify k fun e =>
      { e with definition := d, specificity := specificity } }

/-- Adds `d` at the node, under a key of its own. -/
def attach (t : MatchingTree) (id : SlotKey) (d : Definition) (specificity : Specificity) :
    SlotKey × MatchingTree :=
  let (k, definitions) := t.definitions.insert ⟨d, id, specificity⟩
  (k, ⟨t.forest.modify id (·.enlist k), definitions⟩)

/-- Adds a definition, or puts it in the place of another version of it from the same source. -/
def addOrUpdate (t : MatchingTree) (d : Definition) :
    Except DefinitionError SlotKey × MatchingTree :=
  match d.type.phase?, d.pattern with
  | none, _ => (.error (.unboundType d.type), t)
  | some _, .error e => (.error (.invalidDeclaration e), t)
  | some phase, .ok pattern =>
    let (id, forest) := t.forest.grow (t.forest.root phase) pattern.edges
    let t := { t with forest := forest }
    match t.findAt id d with
    | some k => (.ok k, t.put k d (.ofPattern pattern))
    | none =>
      let (k, t) := t.attach id d (.ofPattern pattern)
      (.ok k, t)

/-- Puts `d` under the key and returns what was there. The key keeps its place in the tree, so `d`
has to have the type and the declaration of the definition it replaces. -/
def replace (t : MatchingTree) (k : SlotKey) (d : Definition) :
    Option Definition × MatchingTree :=
  match t.definitions.get? k with
  | none => (none, t)
  | some e =>
    (some e.definition,
      { t with definitions := t.definitions.replace k { e with definition := d } })

/-- Takes out the definition under the key, and the nodes that it leaves dead. -/
def remove (t : MatchingTree) (k : SlotKey) : Option Definition × MatchingTree :=
  match t.definitions.erase k with
  | none => (none, t)
  | some (e, definitions) =>
    let forest := t.forest.modify e.node (·.strike k)
    (some e.definition, ⟨forest.prune forest.nodes.size e.node, definitions⟩)

def find? (t : MatchingTree) (d : Definition) : Option SlotKey :=
  match d.type.phase?, d.pattern with
  | some phase, .ok pattern =>
    (t.forest.follow (t.forest.root phase) pattern.edges).bind (t.findAt · d)
  | _, _ => none

/-- Takes out another version of `d` from the same source. Returns whether there was one. -/
def removeDefinition (t : MatchingTree) (d : Definition) : Bool × MatchingTree :=
  match t.find? d with
  | none => (false, t)
  | some k =>
    let (removed, t) := t.remove k
    (removed.isSome, t)

end MatchingTree

/-! ## Matching -/

namespace Match

def ofFinding (k : SlotKey) (d : Definition) (p : Pattern) (specificity : Specificity)
    (found : Finding) : Match where
  key := k
  definition := d
  arguments := (p.placeholders.zip found.spans).map fun (p, span) => ⟨p, span⟩
  exact := found.exact
  literals := found.literals
  specificity := specificity

/-- Exact matches come first, then more words, then the more specific definition. -/
def compare (a b : Match) : Ordering :=
  (Ord.compare b.exact a.exact).then
    ((Ord.compare b.literals a.literals).then (b.specificity.compare a.specificity))

end Match

namespace MatchingTree

def match? (t : MatchingTree) (k : SlotKey) (found : Finding) : Option Match :=
  match t.definitions.get? k with
  | none => none
  | some e =>
    match e.definition.pattern with
    | .error _ => none
    | .ok p => some (.ofFinding k e.definition p e.specificity found)

/-- The definitions of a type that the statement matches and, if partial matches are allowed, those
of which it may be the beginning. Equal ones keep the order in which they are found, in which
nothing should be read where it comes from the order of the words at a node. -/
def search (t : MatchingTree) (type : StepType) (statement : Statement) (allowPartial : Bool) :
    List Match :=
  match type.phase? with
  | none => []
  | some phase =>
    let found := Query.run ⟨statement.tokens, allowPartial⟩ t.forest (t.forest.root phase)
    (found.filterMap fun (k, found) => t.match? k found).mergeSort fun a b => (a.compare b).isLE

/-- The definitions of which the statement may be the beginning without matching them. -/
def completions (t : MatchingTree) (type : StepType) (statement : Statement) : List Match :=
  (t.search type statement true).filter (!·.exact)

end MatchingTree

end StepLinker
