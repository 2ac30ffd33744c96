import ShardedModel.Graph.Placement
import ShardedModel.Json

/-!
# A graph as a document

Everything a reader needs to see how a graph is placed: the sizes, each node with
its label, inputs and partition, and each weight with its partition.
-/

namespace ShardedModel

def Operation.toJson : Operation → Json
  | .input => .string "Input"
  | .gather shard => .object [("Gather", .object [("shard", .number shard)])]
  | .accumulate => .string "Accumulate"
  | .stageA => .string "StageA"
  | .stageB => .string "StageB"
  | .shardLogits shard => .object [("ShardLogits", .object [("shard", .number shard)])]
  | .localTopK shard k =>
      .object [("LocalTopK", .object [("shard", .number shard), ("k", .number k)])]
  | .merge k => .object [("Merge", .object [("k", .number k)])]
  | .copy destinations =>
      .object [("Copy", .object [("destinations", .list (destinations.map .number))])]

def Weight.toJson : Weight → Json
  | .embeddingSlice shard => .object [("EmbeddingSlice", .number shard)]
  | .stageA => .string "StageA"
  | .stageB => .string "StageB"

def ValueRef.toJson (v : ValueRef) : Json :=
  .object [("node", .number v.node), ("slot", .number v.slot)]

namespace Graph

def nodeJson (g : Graph) (n : Node) : Json :=
  .object [("id", .number n.id), ("label", .string n.op.label), ("op", n.op.toJson),
    ("inputs", .list (n.inputs.map (·.toJson))),
    ("partition", ((g.placement n.id).map .number).getD .null)]

/-- Slices by shard, and after them the stages. -/
def sortedWeights (g : Graph) : List (Weight × PartitionId) :=
  g.weights.mergeSort fun a b => !b.1.before a.1

def toJson (g : Graph) : Json :=
  .object [("vocab_size", .number g.plan.vocabSize), ("shards", .number g.plan.shardCount),
    ("partitions", .number g.partitions), ("copies", .number g.copyCount),
    ("nodes", .list (g.nodes.map g.nodeJson)),
    ("weights", .list (g.sortedWeights.map fun (weight, partition) =>
      .object [("weight", weight.toJson), ("partition", .number partition)])),
    ("output", (g.output?.map (·.toJson)).getD .null)]

end Graph

end ShardedModel
