import ShardedModel.Graph.Build
import ShardedModel.Graph.Dump
import ShardedModel.Settings
import ShardedModel.Statistics
import ShardedModel.Text.Decimal
import ShardedModel.Text.Pieces

/-!
# What commands print

Each command answers with lines of text: a heading, figures with their names, and
columns. Sizes of shards are in millions of bytes with one decimal, scores have four.
-/

namespace ShardedModel.CommandLine

open Text (padLeft padRight)

/-- A heading over a line of equals signs, after an empty line. -/
def heading (title : String) : List String :=
  ["", title, String.ofList (List.replicate title.length '=')]

/-- A figure with its name in a column. -/
def figure (width : Nat) (name value : String) : String :=
  "  " ++ padRight width (name ++ ":") ++ value

def countFigure (name : String) (n : Nat) : String := figure 17 name (toString n)

/-! ## The plan -/

/-- So many bytes, in millions. -/
def megabytes (bytes : Nat) : String := Decimal.ofDouble 1 (bytes.toUInt64.toFloat / 1000000.0)

def shardLine (rowBytes : Nat) (s : Shard) : Outcome String := do
  let width ← s.width
  let bytes ← Word.mul width rowBytes
  .ok ("  Shard " ++ padRight 3 (toString s.id) ++ " [" ++ padLeft 8 (toString s.lo) ++ ", "
    ++ padLeft 8 (toString s.hi) ++ ")  width " ++ padLeft 8 (toString width) ++ "  "
    ++ padLeft 10 (megabytes bytes) ++ " MB")

def planReport (s : Settings) : Outcome (List String) := do
  let plan ← Plan.cut s.model.vocabSize s.sharding.shardCount
  let rowBytes ← Word.mul s.model.embeddingDim Storage.entryBytes
  let shards ← plan.shards.mapM (shardLine rowBytes)
  .ok (heading "Shard Plan"
    ++ [countFigure "Vocabulary" plan.vocabSize, countFigure "Shards" plan.shardCount,
      countFigure "Embedding Dim" s.model.embeddingDim, "", "Ranges:"]
    ++ shards ++ [""])

/-! ## The graph -/

def partitionLine (partition : PartitionId) (labels : List String) : String :=
  "  Partition " ++ padRight 3 (toString partition) ++ " " ++ ", ".intercalate labels

def graphReport (s : Settings) (json : Bool) : Outcome (List String) := do
  let plan ← Plan.cut s.model.vocabSize s.sharding.shardCount
  let graph ← Graph.build plan ⟨s.sharding.topK, s.executor.coalesceCopies⟩
  if json then
    .ok ((Text.pieces '\n' (graph.toJson.pretty 0).toList).map String.ofList)
  else
    let waves ← graph.waves
    let summary ← graph.summary
    .ok (heading "Inference Graph"
      ++ [countFigure "Partitions" graph.partitions, countFigure "Nodes" graph.nodeCount,
        countFigure "Copies" graph.copyCount, countFigure "Waves" waves.length, "", "Placement:"]
      ++ (summary.map fun (partition, labels) => partitionLine partition labels) ++ [""])

/-! ## A call -/

/-- What is known of a call that returned a prediction. -/
structure CallRecord where
  jobId : String
  tokens : Nat
  executionMs : Nat
  prediction : Prediction Binary32

def candidateLine (rank : Nat) (c : Candidate Binary32) : String :=
  "  #" ++ padRight 2 (toString (rank + 1)) ++ " token " ++ padLeft 8 (toString c.index)
    ++ "  score " ++ padLeft 12 (Decimal.ofBinary32 4 c.score)

def sequenceReport (number : Nat) (candidates : List (Candidate Binary32)) : List String :=
  ["", s!"Sequence {number}:"] ++ candidates.mapIdx candidateLine

def callReport (r : CallRecord) : List String :=
  ["", "✓ Inference completed!", figure 17 "Job ID" r.jobId, countFigure "Tokens" r.tokens,
    figure 17 "Execution Time" s!"{r.executionMs}ms"]
    ++ (r.prediction.rows.mapIdx sequenceReport).flatten ++ [""]

def statisticsReport (s : Statistics) (uptimeSeconds : Nat) : Outcome (List String) := do
  let rate ← s.successRate
  let count (name : String) (n : Nat) : String := figure 21 name (toString n)
  .ok (heading "Inference Metrics"
    ++ [count "Completed" s.callsCompleted, count "Failed" s.callsFailed,
      figure 21 "Success Rate" (Decimal.ofDouble 1 (rate * 100.0) ++ "%"),
      count "Tokens Processed" s.tokensProcessed,
      figure 21 "Avg Latency" (Decimal.ofDouble 2 s.averageLatencyMs ++ "ms"),
      count "Shard Tasks" s.shardTasks, count "Copies" s.copies,
      figure 21 "Uptime" (uptimeText uptimeSeconds), ""])

/-! ## Other texts -/

def versionReport : List String := ["vocabshard 0.1.0"]

def helpReport : List String :=
  ["Vocabulary-sharded inference", "",
    "Usage: vocabshard [--config FILE] COMMAND [OPTIONS]", "",
    "Commands:",
    "  generate-config  Write a default configuration file",
    "  plan             Show the vocabulary shard ranges",
    "  graph            Show the placed inference graph",
    "  infer            Run one sharded inference call"]

end ShardedModel.CommandLine
