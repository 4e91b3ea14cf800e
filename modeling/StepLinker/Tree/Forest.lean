import StepLinker.Keyed
import StepLinker.SlotMap
import StepLinker.StepType
import StepLinker.Tree.Edge

/-!
# Forests of nodes

The nodes of all phases live in one slot map and name one another by their keys. A node knows its
parent and the edge that leads to it, its children by their edges, and the definitions whose
declaration ends there. Each phase has a root. Nodes are made on the way to a definition that is
added, and taken out again, from below, once they have neither a definition nor a child. The
children are listed in the order in which they were made. Among words a hash table may give any
other order, and only the order of results of equal rank would change with it.
-/

namespace StepLinker

structure Node where
  /-- The parent and the edge that leads from there. A root has none. -/
  parent : Option (SlotKey × Edge)
  children : Keyed Edge SlotKey
  /-- The keys of the definitions that end here, the oldest in front. -/
  definitions : List SlotKey
  deriving DecidableEq, Repr

namespace Node

def root : Node :=
  ⟨none, [], []⟩

def child? (n : Node) (edge : Edge) : Option SlotKey :=
  n.children.find? edge

def attach (n : Node) (edge : Edge) (child : SlotKey) : Node :=
  { n with children := n.children.insert edge child }

def detach (n : Node) (edge : Edge) : Node :=
  { n with children := n.children.erase edge }

def enlist (n : Node) (k : SlotKey) : Node :=
  { n with definitions := n.definitions ++ [k] }

def strike (n : Node) (k : SlotKey) : Node :=
  { n with definitions := n.definitions.filter (· ≠ k) }

def isDead (n : Node) : Bool :=
  n.definitions.isEmpty && n.children.isEmpty

def words (n : Node) : Keyed Edge SlotKey :=
  n.children.filter (·.1.isWord)

def arguments (n : Node) : Keyed Edge SlotKey :=
  n.children.filter (!·.1.isWord)

end Node

structure Forest where
  nodes : SlotMap Node
  /-- The roots of the phases. -/
  context : SlotKey
  action : SlotKey
  outcome : SlotKey
  deriving Repr

namespace Forest

def empty : Forest :=
  let (context, nodes) := SlotMap.empty.insert Node.root
  let (action, nodes) := nodes.insert Node.root
  let (outcome, nodes) := nodes.insert Node.root
  ⟨nodes, context, action, outcome⟩

def root (f : Forest) : Phase → SlotKey
  | .context => f.context
  | .action => f.action
  | .outcome => f.outcome

def node? (f : Forest) (id : SlotKey) : Option Node :=
  f.nodes.get? id

def child? (f : Forest) (id : SlotKey) (edge : Edge) : Option SlotKey :=
  (f.node? id).bind (·.child? edge)

def follow (f : Forest) (id : SlotKey) : List Edge → Option SlotKey
  | [] => some id
  | edge :: path => (f.child? id edge).bind (f.follow · path)

def modify (f : Forest) (id : SlotKey) (change : Node → Node) : Forest :=
  { f with nodes := f.nodes.modify id change }

/-- Makes a new node at the end of the edge. -/
def createChild (f : Forest) (parent : SlotKey) (edge : Edge) : SlotKey × Forest :=
  let (child, nodes) := f.nodes.insert ⟨some (parent, edge), [], []⟩
  (child, { f with nodes := nodes }.modify parent (·.attach edge child))

/-- Goes down the path and makes the nodes that are not there yet. Returns the last one. -/
def grow (f : Forest) (id : SlotKey) : List Edge → SlotKey × Forest
  | [] => (id, f)
  | edge :: path =>
    match f.child? id edge with
    | some child => f.grow child path
    | none =>
      let (child, f) := f.createChild id edge
      f.grow child path

/-- Takes out the node if it is dead, and then its parent and so on, but no root. With each of them
there is one node less. -/
def prune (f : Forest) : Nat → SlotKey → Forest
  | 0, _ => f
  | n + 1, id =>
    match f.nodes.erase id with
    | none => f
    | some (node, nodes) =>
      if node.isDead then
        match node.parent with
        | none => f
        | some (parent, edge) =>
          ({ f with nodes := nodes }.modify parent (·.detach edge)).prune n parent
      else f

/-- The keys at a node and at the nodes below it, down to a depth of `n`. -/
def keysUnder (f : Forest) : Nat → SlotKey → List SlotKey
  | 0, _ => []
  | n + 1, id =>
    match f.node? id with
    | none => []
    | some node =>
      node.definitions ++
        (node.words ++ node.arguments).reverse.flatMap fun (_, child) => f.keysUnder n child

/-- The keys at a node and at the nodes below it. A node comes before its children, and these come
the youngest argument first and the oldest word last. -/
def keysFrom (f : Forest) (id : SlotKey) : List SlotKey :=
  f.keysUnder f.nodes.size id

end Forest

end StepLinker
