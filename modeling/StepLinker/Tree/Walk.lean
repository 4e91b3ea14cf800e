import StepLinker.Tree.Forest

/-!
# Walking a forest with a statement

A walk goes down from a root with a statement, depth first: words before arguments, older arguments
before younger ones, and short arguments before long ones. Each edge reads some tokens. Where all of
them have been read, the definitions of the node are found exactly. If partial matches are wanted,
the definitions below it are found too, and so are those behind an edge in the middle of which the
statement breaks off. A definition is found in the first way in which it is, but an exact one
takes the place of a partial one. No node is entered twice with the same number of tokens read.
-/

namespace StepLinker

/-- How the statement gets to a node. -/
structure Reach where
  /-- The number of tokens read. -/
  position : Nat
  /-- The arguments on the way. -/
  spans : List Span
  /-- The number of words read. -/
  literals : Nat
  deriving DecidableEq, Repr

structure Finding where
  exact : Bool
  spans : List Span
  literals : Nat
  deriving DecidableEq, Repr

namespace Reach

def start : Reach :=
  ⟨0, [], 0⟩

/-- The way taken further along the edge, up to `stop`. -/
def take (r : Reach) (edge : Edge) (stop : Nat) : Reach where
  position := stop
  spans := r.spans ++ (edge.span? r.position stop).toList
  literals := r.literals + edge.isWord.toNat

def finding (r : Reach) (exact : Bool) : Finding :=
  ⟨exact, r.spans, r.literals⟩

/-- What is found behind an edge in which the statement breaks off. -/
def broken (r : Reach) (tokens : Array Token) (edge : Edge) : Finding :=
  ⟨false, r.spans ++ (edge.brokenSpan? tokens r.position).toList, r.literals⟩

end Reach

structure Query where
  tokens : Array Token
  allowPartial : Bool

structure Walk where
  /-- The nodes that have been entered, by the number of tokens read. -/
  visited : Array (List SlotKey)
  found : Keyed SlotKey Finding

/-- Takes down a finding, unless what is known of the definition is as good. -/
def record (found : Keyed SlotKey Finding) (sighting : SlotKey × Finding) : Keyed SlotKey Finding :=
  if (found.find? sighting.1).any fun old => old.exact || !sighting.2.exact then found
  else found.insert sighting.1 sighting.2

namespace Walk

def hasEntered (w : Walk) (id : SlotKey) (position : Nat) : Bool :=
  w.visited[position]?.any (·.contains id)

def enter (w : Walk) (id : SlotKey) (position : Nat) : Walk :=
  { w with visited := w.visited.modify position (id :: ·) }

def recordAll (w : Walk) (sightings : List (SlotKey × Finding)) : Walk :=
  { w with found := sightings.foldl record w.found }

end Walk

/-- What a walk does at a node. -/
inductive Move where
  /-- The edge reads tokens up to `stop` and leads to the child. -/
  | enter (edge : Edge) (child : SlotKey) (stop : Nat)
  /-- The statement breaks off in the edge. -/
  | breakOff (edge : Edge) (child : SlotKey)
  deriving DecidableEq, Repr

namespace Query

/-- Whether it may be of use to end a free argument before token `i`: the node behind it is there,
and the statement is over, or may get on from the node, or break off there. -/
def canStopAt (q : Query) (f : Forest) (child : SlotKey) (i : Nat) : Bool :=
  match f.node? child with
  | none => false
  | some next =>
    q.tokens.size ≤ i || !next.arguments.isEmpty || (q.allowPartial && i + 1 = q.tokens.size) ||
      next.words.any fun (edge, _) => (edge.stop? q.tokens i).isSome

/-- The positions to which an edge leads from token `i`. -/
def stops (q : Query) (edge : Edge) (i : Nat) : List Nat :=
  if edge.isFree then List.range' (i + 1) (q.tokens.size - i) else (edge.stop? q.tokens i).toList

/-- The ways into a child. -/
def enters (q : Query) (f : Forest) (i : Nat) (c : Edge × SlotKey) : List Move :=
  let stops := q.stops c.1 i
  (if c.1.isFree then stops.filter (q.canStopAt f c.2) else stops).map (.enter c.1 c.2)

def breakOffs (q : Query) (i : Nat) (c : Edge × SlotKey) : List Move :=
  if q.allowPartial && c.1.breaksOff q.tokens i then [.breakOff c.1 c.2] else []

/-- All that a walk does at a node from token `i` on. -/
def moves (q : Query) (f : Forest) (node : Node) (i : Nat) : List Move :=
  node.words.flatMap (q.enters f i) ++ node.words.flatMap (q.breakOffs i) ++
    node.arguments.flatMap fun c => q.enters f i c ++ q.breakOffs i c

/-- What is found at a node, and below it, when all tokens have been read. -/
def ended (q : Query) (f : Forest) (node : Node) (r : Reach) : List (SlotKey × Finding) :=
  let below := (node.words ++ node.arguments).reverse.flatMap fun (_, child) => f.keysFrom child
  node.definitions.map (·, r.finding true) ++
    if q.allowPartial then below.map (·, r.finding false) else []

/-- Goes on from a node. Every edge reads a token at least, so `n` has to be more than the number
of tokens that are left. -/
def visit (q : Query) (f : Forest) : Nat → SlotKey → Reach → Walk → Walk
  | 0, _, _, w => w
  | n + 1, id, r, w =>
    if w.hasEntered id r.position then w
    else
      let w := w.enter id r.position
      match f.node? id with
      | none => w
      | some node =>
        if q.tokens.size ≤ r.position then w.recordAll (q.ended f node r)
        else
          (q.moves f node r.position).foldl (fun w move =>
            match move with
            | .enter edge child stop => q.visit f n child (r.take edge stop) w
            | .breakOff edge child =>
              w.recordAll ((f.keysFrom child).map (·, r.broken q.tokens edge))) w

def run (q : Query) (f : Forest) (root : SlotKey) : Keyed SlotKey Finding :=
  (q.visit f (q.tokens.size + 1) root .start ⟨.replicate (q.tokens.size + 1) [], []⟩).found

end Query

end StepLinker
