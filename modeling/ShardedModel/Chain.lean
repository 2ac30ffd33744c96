import ShardedModel.Prediction

/-!
# The inference call, step after step

The whole call as one sequence of steps, with everything that the steps hand to
each other: every shard's embeddings, their sum, the numbers of stage A, the hidden
vectors, every shard's scores and candidates, and the prediction. It involves no
graph, no placement and no schedule, which makes it the measure for the calls that
do.
-/

namespace ShardedModel

variable {α : Type}

/-- Everything that one inference call computes. -/
structure Chain (α : Type) where
  gathered : List (Gathered α)
  combined : Tensor3 α
  scores : Tensor3 α
  hidden : Tensor2 α
  logits : List (Logits α)
  locals : List (LocalTopK α)
  prediction : Prediction α
deriving DecidableEq, Repr

namespace Chain

/-- Each shard of a plan with its slice, given to `step`. -/
def eachShard {β : Type} (plan : Plan) (params : Parameters α)
    (step : Shard → TableSlice α → Outcome β) : Outcome (List β) :=
  plan.shards.mapM fun shard => do
    let slice ← params.slice shard.id
    step shard slice

def run [Zero α] [Add α] [Mul α] [Ord α] (plan : Plan) (params : Parameters α)
    (tokens : TokenBatch) (k : Nat) : Outcome (Chain α) := do
  let gathered ← eachShard plan params fun shard slice => gather shard slice tokens
  let combined ← combine gathered plan
  let scores ← params.projection.applyStageA combined
  let hidden ← params.projection.applyStageB scores
  let logits ← eachShard plan params fun shard slice => shardLogits shard slice hidden
  let locals ← (plan.shards.zip logits).mapM fun (shard, l) => localTopK shard l k
  let prediction ← merge locals plan k
  .ok ⟨gathered, combined, scores, hidden, logits, locals, prediction⟩

end Chain

end ShardedModel
