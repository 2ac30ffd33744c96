import ShardedModel.Graph.Schedule

/-!
# Graphs that can run as they are placed

A node may read only what is on its own partition, a value as well as a weight. A
graph can run if each node has a place that exists, reads as many values as its
operation takes and reads nothing from elsewhere, if there is exactly one input and
an output that exists, and if it has a schedule. Nodes are checked in the order of
their ids, and the first thing that is wrong is reported.
-/

namespace ShardedModel.Graph

/-- The weight that an operation reads must be held on the node's partition. -/
def checkWeight (g : Graph) (op : Operation) (partition : PartitionId) : Outcome Unit :=
  match op.weight? with
  | none => .ok ()
  | some weight =>
    match g.weightHome? weight with
    | none => .error (.placement (.weightUnplaced weight))
    | some home =>
        ensure (home = partition) (.placement (.weightElsewhere op partition weight home))

/-- A value that a node reads must be on the node's partition. -/
def checkInput (g : Graph) (op : Operation) (partition : PartitionId) (v : ValueRef) :
    Outcome Unit := do
  let home ← g.valuePartition v
  ensure (home = partition) (.placement (.remoteRead op partition v.node home))

def checkNode (g : Graph) (n : Node) : Outcome Unit := do
  let partition ← g.partitionOf n.id
  ensure (partition < g.partitions)
    (.placement (.noSuchPartition n.op partition g.partitions))
  let arity := n.op.arity g.plan.shardCount
  ensure (n.inputs.length = arity) (.placement (.inputArity n.op arity n.inputs.length))
  g.checkWeight n.op partition
  ensure (n.op ≠ .copy []) (.placement (.noDestinations n.id))
  n.inputs.forM (g.checkInput n.op partition)

/-- Checks that a graph can run as it is placed. -/
def validate (g : Graph) : Outcome Unit := do
  let inputs := g.nodes.countP (·.op == .input)
  ensure (inputs = 1) (.placement (.inputCount inputs))
  g.nodes.forM g.checkNode
  let output ← g.output
  let _ ← g.valuePartition output
  let _ ← g.waves
  .ok ()

/-- The nodes that have a place, with that place. -/
def placedNodes (g : Graph) : List (PartitionId × Node) :=
  g.nodes.filterMap fun n => (g.placement n.id).map (·, n)

/-- The bytes that a partition takes in a list of partitions with their labels. -/
def summaryBytes : Nat := 4 * Storage.wordBytes

/-- The partitions below the number of partitions, and after them those that hold a
node all the same, each with the labels of its nodes. -/
def summary (g : Graph) : Outcome (List (PartitionId × List String)) := do
  Storage.reserve summaryBytes g.partitions
  let placed := g.placedNodes
  let beyond := (placed.map (·.1)).filter (g.partitions ≤ ·)
  let homes := List.range g.partitions ++ (beyond.mergeSort (· ≤ ·)).eraseDups
  .ok (homes.map fun p => (p, (placed.filter (·.1 = p)).map (·.2.op.label)))

end ShardedModel.Graph
