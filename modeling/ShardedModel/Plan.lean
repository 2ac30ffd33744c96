import ShardedModel.Storage

/-!
# Cutting a vocabulary into shards

A plan cuts the ids `0, 1, …, vocabSize - 1` into consecutive ranges, one for
each shard. All shards but the last get the same number of ids, the quotient of
the two sizes, and the last takes what remains. A plan can also be given range by
range; nothing here assumes that such a plan covers the vocabulary, so every
operation answers on gaps, overlaps and empty ranges too.
-/

namespace ShardedModel

/-- One shard's half-open range of ids, with the sizes of the plan it belongs to. -/
structure Shard where
  id : Nat
  lo : Nat
  hi : Nat
  shardCount : Nat
  vocabSize : Nat
deriving DecidableEq, Repr

namespace Shard

/-- The number of ids in the range. -/
def width (s : Shard) : Outcome Nat := Word.sub s.hi s.lo

def contains (s : Shard) (id : Nat) : Bool := s.lo ≤ id && id < s.hi

/-- The id at a position of the range, counted from its lower end. -/
def toGlobal (s : Shard) (index : Nat) : Outcome Nat := Word.add index s.lo

def isLast (s : Shard) : Outcome Bool := do
  let next ← Word.add s.id 1
  .ok (next == s.shardCount)

end Shard

structure Plan where
  vocabSize : Nat
  shards : List Shard
deriving DecidableEq, Repr

namespace Plan

def shardCount (p : Plan) : Nat := p.shards.length

/-- The range of shard `id` when each shard but the last of `shardCount` has
`perShard` ids. -/
def rangeOf (vocabSize shardCount perShard id : Nat) : Outcome Shard := do
  let lo ← Word.mul id perShard
  let hi ← if id + 1 = shardCount then .ok vocabSize else Word.mul (id + 1) perShard
  .ok ⟨id, lo, hi, shardCount, vocabSize⟩

/-- The bytes that a shard takes in a list of shards. -/
def shardBytes : Nat := 5 * Storage.wordBytes

/-- Cuts a vocabulary into equal ranges, the last one taking the remainder. -/
def cut (vocabSize shardCount : Nat) : Outcome Plan := do
  ensure (shardCount ≠ 0) (.config .noShards)
  ensure (shardCount ≤ vocabSize) (.config (.tooFewIds vocabSize shardCount))
  Storage.reserve shardBytes shardCount
  let shards ← (List.range shardCount).mapM (rangeOf vocabSize shardCount (vocabSize / shardCount))
  .ok ⟨vocabSize, shards⟩

def shard (p : Plan) (id : Nat) : Outcome Shard :=
  match p.shards[id]? with
  | some s => .ok s
  | none => .error (.config (.unknownShard id p.shardCount))

/-- Binary search in `size` positions from `base` for the first one at which
`passed` is false, if it is true on a front part and false after it. On any other
`passed` the answer is the position where the halving ends. -/
def search (passed : Nat → Bool) (base size : Nat) : Nat :=
  if h : size ≤ 1 then
    if passed base then base + 1 else base
  else
    let half := size / 2
    search passed (if passed (base + half) then base + half else base) (size - half)
termination_by size
decreasing_by omega

/-- The shard found by binary search over the upper ends. -/
def ownerOf (p : Plan) (id : Nat) : Option Nat :=
  if id < p.vocabSize then
    let passed (i : Nat) : Bool := p.shards[i]?.any (·.hi ≤ id)
    let position := if p.shards.isEmpty then 0 else search passed 0 p.shards.length
    p.shards[position]?.map (·.id)
  else
    none

end Plan

end ShardedModel
