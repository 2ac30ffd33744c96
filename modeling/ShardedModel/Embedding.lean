import ShardedModel.Parameters
import ShardedModel.Tokens

/-!
# Looking up embeddings shard by shard

Each shard answers for every token of a batch, also for those it does not own. It
moves the id into the vocabulary, then into its own range, and looks up the row it
arrives at; if the id was not its own, it hands in zeros instead. So for each token
one shard hands in the embedding and all others hand in zeros, and the sum over the
shards is the embedding.

The sum needs exactly one contribution from every shard. Contributions may arrive
in any order and are summed in the order of the shards, so the order of arrival
does not show in the result.
-/

namespace ShardedModel

variable {α : Type}

/-- The row at which a shard looks up a token, and whether the shard owns it. -/
def localRow (shard : Shard) (id : Int) : Outcome (Nat × Bool) := do
  let global ← clampToVocab id shard.vocabSize
  let last ← Word.sub shard.hi 1
  let clamped ← Word.clamp global shard.lo last
  let row ← Word.sub clamped shard.lo
  .ok (row, shard.contains global)

/-- What one shard hands in to the sum of embeddings. -/
structure Gathered (α : Type) where
  shardId : Nat
  embeddings : Tensor3 α
deriving DecidableEq, Repr

/-- The row of a slice for a token that is owned, and zeros for one that is not. -/
def maskedRow [Zero α] (table : Tensor2 α) (row : Nat) (owned : Bool) : Outcome (Array α) := do
  let xs ← table.tableRow row
  .ok (if owned then xs else Array.replicate table.cols 0)

def gather [Zero α] (shard : Shard) (slice : TableSlice α) (tokens : TokenBatch) :
    Outcome (Gathered α) := do
  slice.check shard
  let located ← tokens.ids.mapM (localRow shard)
  let _ ← Flat.room located.length slice.table.cols
  let rows ← located.mapM fun (row, owned) => maskedRow slice.table row owned
  let embeddings ←
    Tensor3.ofData (Flat.concat rows) tokens.batch tokens.seqLen slice.table.cols
  .ok ⟨shard.id, embeddings⟩

/-! ## One contribution from every shard -/

/-- Goes through the shard ids in their order of arrival and refuses the first one
that is unknown or has been seen. -/
def checkArrivals (what : Contribution) (shardCount : Nat) (seen : List Nat) :
    List Nat → Outcome Unit
  | [] => .ok ()
  | id :: rest => do
      ensure (id < shardCount) (.incomplete (.unknownShard what id shardCount))
      ensure (id ∉ seen) (.incomplete (.duplicate what id))
      checkArrivals what shardCount (id :: seen) rest

/-- The contributions in the order of the shards, if there is one for each. -/
def orderByShard {β : Type} (what : Contribution) (shardOf : β → Nat) (items : List β)
    (shardCount : Nat) : Outcome (List β) := do
  checkArrivals what shardCount [] (items.map shardOf)
  (List.range shardCount).mapM fun id =>
    match items.find? (fun item => shardOf item == id) with
    | some item => .ok item
    | none => .error (.incomplete (.missing what id))

/-- The embeddings of a batch: the sum of what the shards hand in, in the order of
the shards. -/
def combine [Add α] (results : List (Gathered α)) (plan : Plan) : Outcome (Tensor3 α) := do
  let ordered ← orderByShard .gathered (·.shardId) results plan.shardCount
  match ordered with
  | [] => .error (.incomplete .nothingToCombine)
  | first :: rest => rest.foldlM (fun sum r => sum.add r.embeddings) first.embeddings

end ShardedModel
