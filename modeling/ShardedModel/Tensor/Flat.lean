import ShardedModel.Storage

/-!
# Flat storage

A tensor keeps its numbers in one array and its dimensions beside it. Nothing
forces the two to agree, so each read checks that it stays inside the array; a
read past the end is a fault.
-/

namespace ShardedModel.Flat

variable {α : Type}

def read (data : Array α) (index : Nat) : Outcome α :=
  match data[index]? with
  | some x => .ok x
  | none => .error .fault

def write (data : Array α) (index : Nat) (value : α) : Outcome (Array α) :=
  if index < data.size then .ok (data.setIfInBounds index value) else .error .fault

/-- The entries from `start` up to but not including `stop`. -/
def slice (data : Array α) (start stop : Nat) : Outcome (Array α) :=
  if start ≤ stop ∧ stop ≤ data.size then .ok (data.extract start stop) else .error .fault

/-- Asks for room for so many entries. -/
def reserve (count : Nat) : Outcome Unit := Storage.reserve Storage.entryBytes count

/-- The number of entries of a matrix that is about to be made, if there is room for
them. -/
def room (rows cols : Nat) : Outcome Nat := do
  let count ← Word.mul rows cols
  reserve count
  .ok count

/-- One array after the other. -/
def concat (parts : List (Array α)) : Array α := parts.foldl (· ++ ·) #[]

end ShardedModel.Flat
