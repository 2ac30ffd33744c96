import ShardedModel.Plan
import ShardedModel.Tensor.Stack

/-!
# Model parameters

A model is an embedding table with one row for each id of the vocabulary, cut
along a plan into one slice for each shard, and a projection in two stages that is
not cut. A slice serves twice: its rows are the embeddings of its ids, and the
scores of its ids are the products of the same rows with the hidden state.

Parameters come from outside, so they are checked against a plan before they are
used. The check compares shard ids and dimensions and does not look at the data.
-/

namespace ShardedModel

variable {α : Type}

/-- The rows of the embedding table that one shard owns. -/
structure TableSlice (α : Type) where
  shardId : Nat
  table : Tensor2 α
deriving DecidableEq, Repr

namespace TableSlice

/-- The bytes of the record of a slice: its shard, where its numbers stand and how many
there is room for, and its dimensions. -/
def recordBytes : Nat := 6 * Storage.wordBytes

def embeddingDim (s : TableSlice α) : Nat := s.table.cols

/-- A slice fits a shard if it was made for it and has a row for each of its
ids. -/
def check (s : TableSlice α) (shard : Shard) : Outcome Unit := do
  ensure (s.shardId = shard.id) (.shape (.sliceOwner s.shardId shard.id))
  let width ← shard.width
  ensure (s.table.rows = width) (.shape (.sliceRows shard.id width s.table.rows))

/-- The bytes that the numbers of a slice take. -/
def memoryBytes (s : TableSlice α) : Nat := s.table.size * Storage.entryBytes

end TableSlice

/-- The first stage weighs an embedding into one score, and the second turns a
sequence of scores into a vector of the embedding dimension. -/
structure Projection (α : Type) where
  stageA : Tensor2 α
  stageB : Tensor2 α
deriving DecidableEq, Repr

namespace Projection

/-- A projection of two stages whose dimensions belong together. -/
def ofStages (stageA stageB : Tensor2 α) : Outcome (Projection α) := do
  ensure (stageA.cols = 1) (.shape (.stageA stageA.rows stageA.cols))
  ensure (stageB.cols = stageA.rows) (.shape (.stageB stageA.rows stageB.rows stageB.cols))
  .ok ⟨stageA, stageB⟩

/-- The projection that leaves a single number as it is. -/
def scalarIdentity [One α] : Projection α := ⟨⟨#[1], 1, 1⟩, ⟨#[1], 1, 1⟩⟩

def embeddingDim (p : Projection α) : Nat := p.stageA.rows

def seqLen (p : Projection α) : Nat := p.stageB.rows

end Projection

structure Parameters (α : Type) where
  shards : List (TableSlice α)
  projection : Projection α
deriving DecidableEq, Repr

/-- Cuts a table along the ranges of a plan. -/
def splitTable (table : Tensor2 α) (plan : Plan) : Outcome (List (TableSlice α)) := do
  ensure (table.rows = plan.vocabSize) (.shape (.tableRows table.rows plan.vocabSize))
  Storage.collect TableSlice.recordBytes (fun shard => do
    let rows ← table.rowSlice shard.lo shard.hi
    .ok ⟨shard.id, rows⟩) plan.shards

namespace Parameters

def ofFullTable (table : Tensor2 α) (plan : Plan) (projection : Projection α) :
    Outcome (Parameters α) := do
  let shards ← splitTable table plan
  .ok ⟨shards, projection⟩

/-- The slice of a shard. Slices stand in the order of their shards. -/
def slice (p : Parameters α) (shardId : Nat) : Outcome (TableSlice α) :=
  match p.shards[shardId]? with
  | some s => if s.shardId = shardId then .ok s else .error (.incomplete (.noSlice shardId))
  | none => .error (.incomplete (.noSlice shardId))

/-- Checks the slice of one shard of a plan. -/
def checkShard (p : Parameters α) (shard : Shard) : Outcome Unit := do
  let s ← p.slice shard.id
  s.check shard
  ensure (s.embeddingDim = p.projection.embeddingDim)
    (.shape (.sliceDim shard.id s.embeddingDim p.projection.embeddingDim))

/-- Checks every slice against a plan, and its dimension against the projection. -/
def validate (p : Parameters α) (plan : Plan) : Outcome Unit := do
  ensure (p.shards.length = plan.shardCount)
    (.incomplete (.sliceCount plan.shardCount p.shards.length))
  plan.shards.forM p.checkShard

/-- The bytes that the slice of each shard takes. -/
def memoryBytes (p : Parameters α) : List Nat := p.shards.map (·.memoryBytes)

end Parameters

end ShardedModel
