import ShardedModel.Parameters

/-!
# From embeddings to scores

The projection turns the embeddings of a sequence into one hidden vector. Stage A
weighs each embedding into a number, which gives a row of numbers for each
sequence; stage B multiplies that row with a matrix. Both stages are products of
matrices, done for each sequence of the batch on its own.

Scores are tied to the embedding table: the score of an id is the product of its
row of the table with the hidden vector. A shard scores the ids it owns and no
others.
-/

namespace ShardedModel

variable {α : Type} [Zero α] [Add α] [Mul α]

namespace Projection

/-- One number for each token, laid out as one row for each sequence. -/
def applyStageA (p : Projection α) (embeddings : Tensor3 α) : Outcome (Tensor3 α) := do
  ensure (embeddings.cols = p.embeddingDim)
    (.shape (.embeddingDim p.embeddingDim embeddings.cols))
  ensure (embeddings.rows = p.seqLen) (.shape (.sequenceLength p.seqLen embeddings.rows))
  let scores ← embeddings.batchedMatmul p.stageA
  scores.transposeInner

/-- One hidden vector for each row of numbers. -/
def applyStageB (p : Projection α) (scores : Tensor3 α) : Outcome (Tensor2 α) := do
  let projected ← scores.batchedMatmul p.stageB
  projected.squeezeMiddle

/-- Both stages, from the embeddings of each sequence to its hidden vector. -/
def apply (p : Projection α) (embeddings : Tensor3 α) : Outcome (Tensor2 α) := do
  let scores ← p.applyStageA embeddings
  p.applyStageB scores

end Projection

/-- The scores of one shard's ids, a row for each sequence. -/
structure Logits (α : Type) where
  shardId : Nat
  scores : Tensor2 α
deriving DecidableEq, Repr

/-- Scores the ids of a shard against the hidden vectors of a batch. -/
def shardLogits (shard : Shard) (slice : TableSlice α) (hidden : Tensor2 α) :
    Outcome (Logits α) := do
  slice.check shard
  ensure (slice.embeddingDim = hidden.cols)
    (.shape (.hiddenDim shard.id slice.embeddingDim hidden.cols))
  let columns ← hidden.transpose
  let products ← slice.table.matmul columns
  let scores ← products.transpose
  .ok ⟨shard.id, scores⟩

end ShardedModel
