import ShardedModel.Graph.Placement

/-!
# Copies between partitions

Two passes make a graph obey the rule that nodes read only what is on their own
partition.

`insertCopies` looks for crossings, inputs that live on another partition than the
node that reads them, and sends each one through a copy of its own. The crossings
are all found before the graph is touched, so a graph in which some input does not
resolve is left as it was.

`coalesceCopies` joins the copies of one value. Copies of the same value form a
group; the first of them stays and delivers to the destinations of all, each once
and in order, and whoever read a slot of a copy of the group reads the slot of the
one that stays with the same destination. Copies that are alone stay as they are.
-/

namespace ShardedModel.Graph

/-! ## Inserting copies -/

/-- An input that lives on another partition than the node that reads it. -/
structure Crossing where
  consumer : NodeId
  position : Nat
  value : ValueRef
  source : PartitionId
  destination : PartitionId
deriving DecidableEq, Repr

/-- The crossings among the inputs of one node. -/
def crossingsOf (g : Graph) (n : Node) : Outcome (List Crossing) := do
  let destination ← g.partitionOf n.id
  let inputs ← n.inputs.zipIdx.mapM fun (value, position) => do
    let source ← g.valuePartition value
    .ok (⟨n.id, position, value, source, destination⟩ : Crossing)
  .ok (inputs.filter fun c => c.source ≠ c.destination)

/-- All crossings, in the order of nodes and inputs. Copies may read from
anywhere. -/
def crossings (g : Graph) : Outcome (List Crossing) := do
  let found ← (g.nodes.filter (!·.op.isCopy)).mapM g.crossingsOf
  .ok found.flatten

/-- Sends a crossing through a copy on the partition of its source. -/
def route (g : Graph) (c : Crossing) : Graph :=
  (g.addNode (.copy [c.destination]) [c.value] c.source).setInput
    c.consumer c.position (.of g.nextId)

/-- Gives each crossing a copy, and says how many there were. -/
def insertCopies (g : Graph) : Outcome (Graph × Nat) := do
  let found ← g.crossings
  .ok (found.foldl route g, found.length)

/-! ## Joining copies -/

/-- A copy and the value it copies. -/
def copySource? (n : Node) : Option ValueRef :=
  if n.op.isCopy then n.inputs.head? else none

def destinationsOf : Operation → List PartitionId
  | .copy destinations => destinations
  | _ => []

/-- The copies of a value, in the order of their ids. -/
def copiesOf (g : Graph) (source : ValueRef) : List Node :=
  g.nodes.filter fun n => copySource? n == some source

/-- A group of at least two copies of one value: the one that stays, and all
destinations, each once and in order. -/
structure CopyGroup where
  keeper : NodeId
  destinations : List PartitionId
deriving DecidableEq, Repr

/-- The group that a copy belongs to, if it is not the only copy of its value. -/
def group? (g : Graph) (n : Node) : Option CopyGroup := do
  let source ← copySource? n
  match g.copiesOf source with
  | first :: second :: rest =>
      let all := (first :: second :: rest).flatMap (destinationsOf ·.op)
      some ⟨first.id, (all.mergeSort (· ≤ ·)).eraseDups⟩
  | _ => none

/-- Where a value is found after copies were joined. -/
def redirect (g : Graph) (v : ValueRef) : ValueRef :=
  let target : Option ValueRef := do
    let n ← g.node? v.node
    let group ← g.group? n
    let destination ← (destinationsOf n.op)[v.slot]?
    some ⟨group.keeper, group.destinations.idxOf destination⟩
  target.getD v

/-- A node is taken out if another copy of its group stays. -/
def absorbed (g : Graph) (n : Node) : Bool :=
  match g.group? n with
  | some group => group.keeper != n.id
  | none => false

/-- The operation of a node that stays. -/
def joinedOp (g : Graph) (n : Node) : Operation :=
  match g.group? n with
  | some group => .copy group.destinations
  | none => n.op

/-- Joins the copies of each value into one, and says how many went. -/
def coalesceCopies (g : Graph) : Graph × Nat :=
  let gone := (g.nodes.filter g.absorbed).map (·.id)
  let kept := g.keepNodes (!gone.contains ·)
  let joined := kept.mapNodes g.joinedOp fun n => n.inputs.map g.redirect
  ({ joined with output? := g.output?.map g.redirect }, gone.length)

end ShardedModel.Graph
