import ShardedModel.Binary32

/-!
# Ranking scores

A candidate is a score together with the index it belongs to, an index inside
one shard or a token id. Candidates rank by score, the highest first, and among
equal scores the lower index comes first. Indices within one score list differ,
so the rank of a candidate in it is never in doubt, and the best `k` are the first
`k` of the sorted list.

The order of scores is a parameter. For bit patterns it is the total order, which
leaves no two different patterns equal.
-/

namespace ShardedModel

structure Candidate (α : Type) where
  score : α
  index : Nat
deriving DecidableEq, Repr

namespace Candidate

variable {α : Type} [Ord α]

/-- `lt` if the first candidate ranks before the second. -/
def order (a b : Candidate α) : Ordering :=
  (compare b.score a.score).then (compare a.index b.index)

/-- The first candidate ranks before the second or is level with it. -/
def ranksFirst (a b : Candidate α) : Bool := (order a b).isLE

/-- The best `k` of a list of candidates, best first. -/
def best (candidates : List (Candidate α)) (k : Nat) : List (Candidate α) :=
  (candidates.mergeSort ranksFirst).take k

end Candidate

/-- Each score with its position. -/
def candidatesOf {α : Type} (scores : List α) : List (Candidate α) :=
  scores.zipIdx.map fun (score, index) => ⟨score, index⟩

/-- The best `k` scores with their positions. -/
def topK {α : Type} [Ord α] (scores : List α) (k : Nat) : List (Candidate α) :=
  Candidate.best (candidatesOf scores) k

/-- The position of the best score. -/
def argmax {α : Type} [Ord α] (scores : List α) : Option Nat :=
  (topK scores 1).head?.map (·.index)

end ShardedModel
