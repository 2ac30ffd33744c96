import ShardedModel.Word

/-!
# Room in memory

Records that stand one after the other take one block of memory, and a signed word
counts the bytes of a block. Where the number of records is known, room is asked for
before the first one is made, so a block that no signed word can count is a fault at
once, whatever its records would have been. Where it is not, the block grows as the
records come.

Room is asked for the numbers of tensors and token batches, the matrices of a stack,
the shards of a plan and the slices of a table. The lists that a call puts together
on its way from those, such as the nodes of its graph and the candidates it ranks, do
not ask for room here.
-/

namespace ShardedModel.Storage

/-- The bytes of a word. -/
def wordBytes : Nat := 8

/-- The bytes of an entry of a tensor. -/
def entryBytes : Nat := 4

/-- Asks for room for `count` records of `bytes` bytes each. -/
def reserve (bytes count : Nat) : Outcome Unit :=
  ensure (bytes * count < Word.signedLimit) .fault

/-- How many records a block has room for that began with room for four and was
doubled until `count` fit. -/
def capacity (count : Nat) : Nat := max 4 (1 <<< ((count - 1).log2 + 1))

/-- Makes records one after the other in a block that grows with them. -/
def collect {α β : Type} (bytes : Nat) (make : α → Outcome β) (items : List α) :
    Outcome (List β) :=
  items.zipIdx.mapM fun entry => do
    let record ← make entry.1
    reserve bytes (capacity (entry.2 + 1))
    .ok record

end ShardedModel.Storage
