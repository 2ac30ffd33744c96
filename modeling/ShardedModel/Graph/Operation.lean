/-!
# What the nodes of an inference graph compute

The dataflow of one inference call is fixed: tokens go in, every shard looks up
its rows, the rows are summed, two projection stages turn the sum into a hidden
vector, every shard scores its own rows against that vector and keeps its best
candidates, and one merge ranks them all. `Operation` names these steps. The one
step that computes nothing is `copy`, which makes a value readable on other
partitions, one output slot for each destination.

An operation knows the weight it reads and the shard it works for, because
placement is checked against the first and progress is counted by the second.
-/

namespace ShardedModel

/-- Nodes are numbered in the order in which they were added, from zero. -/
abbrev NodeId := Nat

/-- A partition is a place where nodes run and where weights are kept. -/
abbrev PartitionId := Nat

/-- One output of a node. Only a copy has more than one slot. -/
structure ValueRef where
  node : NodeId
  slot : Nat
deriving DecidableEq, Repr

/-- The only output of a node that is not a copy. -/
def ValueRef.of (node : NodeId) : ValueRef := ⟨node, 0⟩

/-- A weight that some partition holds. -/
inductive Weight where
  | embeddingSlice (shard : Nat)
  | stageA
  | stageB
deriving DecidableEq, Repr

namespace Weight

/-- Weights are listed with the slices first, by shard, and then the two stages. -/
def before : Weight → Weight → Bool
  | .embeddingSlice a, .embeddingSlice b => a < b
  | .embeddingSlice _, _ => true
  | .stageA, .stageB => true
  | _, _ => false

/-- How a weight is named in messages. -/
def name : Weight → String
  | .embeddingSlice shard => s!"EmbeddingSlice({shard})"
  | .stageA => "StageA"
  | .stageB => "StageB"

end Weight

inductive Operation where
  | input
  | gather (shard : Nat)
  | accumulate
  | stageA
  | stageB
  | shardLogits (shard : Nat)
  | localTopK (shard k : Nat)
  | merge (k : Nat)
  | copy (destinations : List PartitionId)
deriving DecidableEq, Repr

/-- A list of numbers in brackets, as messages and labels show it. -/
def bracketed (ns : List Nat) : String :=
  "[" ++ ", ".intercalate (ns.map toString) ++ "]"

namespace Operation

/-- The weight that an operation reads, if it reads one. -/
def weight? : Operation → Option Weight
  | .gather shard | .shardLogits shard => some (.embeddingSlice shard)
  | .stageA => some .stageA
  | .stageB => some .stageB
  | _ => none

/-- The shard that an operation works for, if its work belongs to one. -/
def shard? : Operation → Option Nat
  | .gather shard | .shardLogits shard | .localTopK shard _ => some shard
  | _ => none

def isCopy : Operation → Bool
  | .copy _ => true
  | _ => false

def outputSlots : Operation → Nat
  | .copy destinations => destinations.length
  | _ => 1

/-- The barriers read one value from every shard, and all else reads one value. -/
def arity (shardCount : Nat) : Operation → Nat
  | .input => 0
  | .accumulate | .merge _ => shardCount
  | _ => 1

def label : Operation → String
  | .input => "input"
  | .gather shard => s!"gather_{shard}"
  | .accumulate => "accumulate"
  | .stageA => "stage_a"
  | .stageB => "stage_b"
  | .shardLogits shard => s!"logits_{shard}"
  | .localTopK shard k => s!"topk_{shard}(k={k})"
  | .merge k => s!"merge(k={k})"
  | .copy destinations => "copy->" ++ bracketed destinations

end Operation

end ShardedModel
