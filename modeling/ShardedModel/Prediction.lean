import ShardedModel.Embedding
import ShardedModel.Ranking
import ShardedModel.Scoring

/-!
# The best tokens over all shards

Each shard ranks its own scores and keeps the best `k` for every sequence, by the
index inside the shard. The merge shifts the indices to token ids, puts the
candidates of all shards into one pool for each sequence and ranks the pool. An id
among the best `k` of the whole vocabulary is among the best `k` of its shard, so
nothing that matters is lost on the way; and shifting keeps the order of indices,
so ties fall the same way in a shard and in the pool.
-/

namespace ShardedModel

variable {α : Type}

/-- One shard's candidates for every sequence, by the index inside the shard. -/
structure LocalTopK (α : Type) where
  shardId : Nat
  candidates : List (List (Candidate α))
deriving DecidableEq, Repr

/-- The best tokens of every sequence, best first. -/
structure Prediction (α : Type) where
  rows : List (List (Candidate α))
deriving DecidableEq, Repr

namespace Prediction

def batch (p : Prediction α) : Nat := p.rows.length

/-- The best token of one sequence. -/
def top1 (p : Prediction α) (b : Nat) : Option (Candidate α) := p.rows[b]?.bind List.head?

/-- The best token id of every sequence that has candidates. -/
def nextTokens (p : Prediction α) : List Nat :=
  p.rows.filterMap fun row => row.head?.map (·.index)

end Prediction

/-- Ranks one shard's scores. The shard must own at least `k` ids. -/
def localTopK [Ord α] (shard : Shard) (logits : Logits α) (k : Nat) : Outcome (LocalTopK α) := do
  ensure (k ≠ 0) (.config .zeroTopK)
  ensure (logits.shardId = shard.id) (.shape (.logitsOwner logits.shardId shard.id))
  let width ← shard.width
  ensure (logits.scores.cols = width) (.shape (.logitsWidth shard.id width logits.scores.cols))
  ensure (k ≤ width) (.emptyShard shard.id width k)
  let candidates ← Outcome.tabulate logits.scores.rows fun b => do
    let scores ← logits.scores.row b
    .ok (topK scores.toList k)
  .ok ⟨shard.id, candidates⟩

namespace LocalTopK

/-- Candidates by token id. -/
def rebase (l : LocalTopK α) (shard : Shard) : Outcome (List (List (Candidate α))) :=
  l.candidates.mapM fun row => row.mapM fun c => do
    let id ← shard.toGlobal c.index
    .ok ⟨c.score, id⟩

/-- What the merge asks of one shard's candidates: a row for each of `batch`
sequences, at least `k` candidates in each row, and indices inside the shard. -/
def check (l : LocalTopK α) (plan : Plan) (k batch : Nat) : Outcome Unit := do
  ensure (l.candidates.length = batch)
    (.shape (.candidateRows l.shardId l.candidates.length batch))
  match l.candidates.find? (·.length < k) with
  | some short => .error (.emptyShard l.shardId short.length k)
  | none => .ok ()
  let shard ← plan.shard l.shardId
  let width ← shard.width
  match l.candidates.flatten.find? (width ≤ ·.index) with
  | some c => .error (.shape (.candidateIndex l.shardId c.index width))
  | none => .ok ()

end LocalTopK

/-- The candidates of all shards for one sequence, in the order of the shards. -/
def pool (rebased : List (List (List (Candidate α)))) (b : Nat) : List (Candidate α) :=
  rebased.flatMap fun rows => rows.getD b []

/-- Joins what every shard kept into the best `k` tokens of each sequence. -/
def merge [Ord α] (locals : List (LocalTopK α)) (plan : Plan) (k : Nat) :
    Outcome (Prediction α) := do
  ensure (k ≠ 0) (.config .zeroTopK)
  let ordered ← orderByShard .candidates (·.shardId) locals plan.shardCount
  match ordered with
  | [] => .error .fault
  | first :: _ => do
      let batch := first.candidates.length
      ordered.forM fun l => l.check plan k batch
      let rebased ← ordered.mapM fun l => do
        let shard ← plan.shard l.shardId
        l.rebase shard
      .ok ⟨(List.range batch).map fun b => Candidate.best (pool rebased b) k⟩

end ShardedModel
