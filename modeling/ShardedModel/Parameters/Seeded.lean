import ShardedModel.Parameters
import ShardedModel.Random.Normal

/-!
# Parameters drawn at random

A model to try things out with: all numbers are drawn from one source, first the
table row by row, then stage A, then stage B. The table is drawn before it is cut,
so a plan with other shards gets the same table in other slices.

What the source is does not matter here. `seeded` takes normally distributed
numbers from the stream of a seed.
-/

namespace ShardedModel

variable {α σ : Type}

/-- The next `count` numbers of a source. -/
def drawMany (next : σ → α × σ) (count : Nat) (source : σ) : Array α × σ :=
  (List.range count).foldl (fun (xs, s) _ =>
    let (x, s) := next s
    (xs.push x, s)) (Array.emptyWithCapacity count, source)

/-- A matrix filled row by row from a source. -/
def drawMatrix (next : σ → α × σ) (rows cols : Nat) (source : σ) :
    Outcome (Tensor2 α × σ) := do
  let count ← Flat.room rows cols
  let (data, source) := drawMany next count source
  .ok (⟨data, rows, cols⟩, source)

namespace Parameters

/-- Parameters for a plan, all drawn from one source. -/
def drawn (next : σ → α × σ) (source : σ) (plan : Plan) (embeddingDim seqLen : Nat) :
    Outcome (Parameters α) := do
  let (table, source) ← drawMatrix next plan.vocabSize embeddingDim source
  let (stageA, source) ← drawMatrix next embeddingDim 1 source
  let (stageB, _) ← drawMatrix next seqLen embeddingDim source
  let projection ← Projection.ofStages stageA stageB
  ofFullTable table plan projection

/-- Parameters with normally distributed numbers, the same for the same seed. -/
def seeded (seed : UInt64) (plan : Plan) (embeddingDim seqLen : Nat) :
    Outcome (Parameters Binary32) :=
  drawn Normal.draw (WordStream.ofSeed seed) plan embeddingDim seqLen

end Parameters

end ShardedModel
