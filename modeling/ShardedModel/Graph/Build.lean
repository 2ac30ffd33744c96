import ShardedModel.Graph.Copies

/-!
# The inference graph of a plan

With `n` shards the graph has `n + 2` partitions. Partition `i` below `n` holds the
slice of shard `i` and does all work of that shard; the last of these also sums the
embeddings and merges the candidates. The two stages of the projection have a
partition each. Tokens come in on partition 0.

The nodes are added without regard to partitions, and the copy passes do the rest.
-/

namespace ShardedModel.Graph

structure Options where
  topK : Nat
  coalesce : Bool
deriving DecidableEq, Repr

instance : Inhabited Options := ⟨⟨4, true⟩⟩

/-- The first of the narrowest shards, with its width. -/
def narrowest : List (Shard × Nat) → Option (Shard × Nat)
  | [] => none
  | s :: rest => some (rest.foldl (fun best next => if next.2 < best.2 then next else best) s)

/-- Refuses a plan in which a shard has fewer than `k` ids. -/
def checkWidths (plan : Plan) (k : Nat) : Outcome Unit := do
  let widths ← plan.shards.mapM fun s => do
    let width ← s.width
    .ok (s, width)
  match narrowest widths with
  | some (shard, width) => ensure (k ≤ width) (.emptyShard shard.id width k)
  | none => .ok ()

/-- Holds each slice on the partition of its shard and each stage on its own. -/
def placeWeights (g : Graph) (n : Nat) : Graph :=
  let slices := (List.range n).foldl (fun g shard => g.placeWeight (.embeddingSlice shard) shard) g
  (slices.placeWeight .stageA n).placeWeight .stageB (n + 1)

/-- The lookups of all shards, and their sum. -/
def addEmbedding (g : Graph) (n : Nat) : Graph :=
  let input := g.nextId
  let g := g.addNode .input [] 0
  let first := g.nextId
  let g := (List.range n).foldl (fun g shard => g.addNode (.gather shard) [.of input] shard) g
  g.addNode .accumulate ((List.range n).map fun shard => .of (first + shard)) (n - 1)

/-- The two stages of the projection, on the value of the last node. -/
def addProjection (g : Graph) (n : Nat) : Graph :=
  let g := g.addNode .stageA [.of (g.nextId - 1)] n
  g.addNode .stageB [.of (g.nextId - 1)] (n + 1)

/-- The scores and candidates of all shards from the value of the last node, and
their merge. -/
def addRanking (g : Graph) (n k : Nat) : Graph :=
  let first := g.nextId
  let hidden := first - 1
  let g := (List.range n).foldl (fun g shard =>
    (g.addNode (.shardLogits shard) [.of hidden] shard).addNode (.localTopK shard k)
      [.of g.nextId] shard) g
  g.addNode (.merge k) ((List.range n).map fun shard => .of (first + 2 * shard + 1)) (n - 1)

/-- The graph of a plan before copies are inserted. -/
def dataflow (plan : Plan) (k : Nat) : Graph :=
  let n := plan.shardCount
  let g := (((placeWeights (.empty plan (n + 2)) n).addEmbedding n).addProjection n).addRanking n k
  g.setOutput (.of (g.nextId - 1))

/-- The inference graph of a plan, placed and checked. A plan without shards has
none. -/
def build (plan : Plan) (options : Options) : Outcome Graph := do
  ensure (options.topK ≠ 0) (.config .zeroTopK)
  checkWidths plan options.topK
  let _ ← Word.sub plan.shardCount 1
  let (g, _) ← (dataflow plan options.topK).insertCopies
  let g := if options.coalesce then g.coalesceCopies.1 else g
  g.validate
  .ok g

end ShardedModel.Graph
