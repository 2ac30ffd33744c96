import ShardedModel.Plan

/-!
# Graphs placed on partitions

A graph is a list of nodes in the order of their ids, and it says for each node on
which partition it runs and for each weight which partition holds it. Ids are given
out in order and never again, so the list stays in order: nodes are added at its
end, changed where they stand, or taken out. That the ids increase and stay below
the next one to be given out is part of the type.

Placement is data of its own. A node can be without a place, and a place can be
given to an id that no node has.

A value lives where its node runs, except that slot `i` of a copy lives on the
copy's destination `i`.
-/

namespace ShardedModel

structure Node where
  id : NodeId
  op : Operation
  inputs : List ValueRef
deriving DecidableEq, Repr

structure Graph where
  plan : Plan
  partitions : Nat
  nodes : List Node
  nextId : NodeId
  /-- Where each node runs. -/
  placement : NodeId → Option PartitionId
  /-- Where each weight is held, one entry for each weight. -/
  weights : List (Weight × PartitionId)
  output? : Option ValueRef
  ordered : nodes.Pairwise (fun a b => a.id < b.id)
  fresh : ∀ n ∈ nodes, n.id < nextId

namespace Graph

/-- A graph without nodes. -/
def empty (plan : Plan) (partitions : Nat) : Graph where
  plan
  partitions
  nodes := []
  nextId := 0
  placement := fun _ => none
  weights := []
  output? := none
  ordered := .nil
  fresh := by simp

/-! ## Changing a graph -/

/-- Gives a node a place, or takes it away. -/
def setPlace (g : Graph) (id : NodeId) (place : Option PartitionId) : Graph :=
  { g with placement := fun n => if n = id then place else g.placement n }

theorem ordered_push {nodes : List Node} {last : Node}
    (ordered : nodes.Pairwise (fun a b => a.id < b.id)) (fresh : ∀ n ∈ nodes, n.id < last.id) :
    (nodes ++ [last]).Pairwise (fun a b => a.id < b.id) := by
  refine List.pairwise_append.mpr ⟨ordered, by simp, ?_⟩
  intro a ha b hb
  rw [List.mem_singleton] at hb
  subst hb
  exact fresh a ha

theorem fresh_push {nodes : List Node} {last : Node} (fresh : ∀ n ∈ nodes, n.id < last.id) :
    ∀ n ∈ nodes ++ [last], n.id < last.id + 1 := by
  intro n hn
  rcases List.mem_append.mp hn with h | h
  · exact Nat.lt_succ_of_lt (fresh n h)
  · rw [List.mem_singleton] at h
    subst h
    exact Nat.lt_succ_self _

/-- Adds a node with the next id, on a partition. -/
def addNode (g : Graph) (op : Operation) (inputs : List ValueRef) (partition : PartitionId) :
    Graph :=
  { g with
    nodes := g.nodes ++ [⟨g.nextId, op, inputs⟩]
    nextId := g.nextId + 1
    placement := fun n => if n = g.nextId then some partition else g.placement n
    ordered := ordered_push g.ordered g.fresh
    fresh := fresh_push g.fresh }

/-- Changes operations and inputs, node by node. -/
def mapNodes (g : Graph) (op : Node → Operation) (inputs : Node → List ValueRef) : Graph :=
  { g with
    nodes := g.nodes.map fun n => ⟨n.id, op n, inputs n⟩
    ordered := List.pairwise_map.mpr g.ordered
    fresh := by
      intro n hn
      obtain ⟨m, hm, rfl⟩ := List.mem_map.mp hn
      exact g.fresh m hm }

/-- Takes out the nodes that are not kept, and their places. -/
def keepNodes (g : Graph) (keep : NodeId → Bool) : Graph :=
  { g with
    nodes := g.nodes.filter fun n => keep n.id
    placement := fun n => if keep n then g.placement n else none
    ordered := g.ordered.filter _
    fresh := fun n hn => g.fresh n (List.mem_filter.mp hn).1 }

/-- Replaces one input of one node. -/
def setInput (g : Graph) (id : NodeId) (position : Nat) (value : ValueRef) : Graph :=
  g.mapNodes (·.op) fun n => if n.id = id then n.inputs.set position value else n.inputs

def placeWeight (g : Graph) (weight : Weight) (partition : PartitionId) : Graph :=
  { g with weights := g.weights.filter (·.1 ≠ weight) ++ [(weight, partition)] }

def unplaceWeight (g : Graph) (weight : Weight) : Graph :=
  { g with weights := g.weights.filter (·.1 ≠ weight) }

def setOutput (g : Graph) (value : ValueRef) : Graph := { g with output? := some value }

/-! ## Reading a graph -/

def node? (g : Graph) (id : NodeId) : Option Node := g.nodes.find? (·.id == id)

def node (g : Graph) (id : NodeId) : Outcome Node :=
  match g.node? id with
  | some n => .ok n
  | none => .error (.placement (.unknownNode id))

def output (g : Graph) : Outcome ValueRef :=
  match g.output? with
  | some v => .ok v
  | none => .error (.placement .noOutput)

/-- The partition that holds a weight. -/
def weightHome? (g : Graph) (weight : Weight) : Option PartitionId :=
  (g.weights.find? (·.1 == weight)).map (·.2)

def nodeCount (g : Graph) : Nat := g.nodes.length

def copyCount (g : Graph) : Nat := g.nodes.countP (·.op.isCopy)

/-- The number of nodes whose work belongs to one shard. -/
def shardTaskCount (g : Graph) : Nat := g.nodes.countP (·.op.shard?.isSome)

def partitionOf (g : Graph) (id : NodeId) : Outcome PartitionId :=
  match g.placement id with
  | some p => .ok p
  | none => .error (.placement (.unplaced id))

/-- The partition on which a value can be read. -/
def valuePartition (g : Graph) (v : ValueRef) : Outcome PartitionId := do
  let n ← g.node v.node
  match n.op with
  | .copy destinations =>
      match destinations[v.slot]? with
      | some p => .ok p
      | none => .error (.placement (.noCopySlot v.node v.slot))
  | _ =>
      if v.slot = 0 then g.partitionOf v.node
      else .error (.placement (.singleOutput v.node v.slot))

end Graph

end ShardedModel
