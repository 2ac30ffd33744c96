import ShardedModel.Word

/-!
# Batches of token ids

A batch holds sequences of equal length, one after the other. Ids are signed
64-bit numbers and need not lie in the vocabulary: an id below it counts as the
first token and an id above it as the last.
-/

namespace ShardedModel

structure TokenBatch where
  ids : List Int
  batch : Nat
  seqLen : Nat
deriving DecidableEq, Repr

namespace TokenBatch

/-- A batch of the given shape, if the ids fill it exactly and there are any. -/
def ofIds (ids : List Int) (batch seqLen : Nat) : Outcome TokenBatch := do
  let count ← Word.mul batch seqLen
  ensure (ids.length = count) (.shape (.tokenCount ids.length batch seqLen))
  ensure (batch ≠ 0 ∧ seqLen ≠ 0) (.shape (.emptyBatch batch seqLen))
  .ok ⟨ids, batch, seqLen⟩

/-- Each id is a sequence of its own. -/
def ofSingleTokens (ids : List Int) : Outcome TokenBatch := ofIds ids ids.length 1

def ofSequences (sequences : List (List Int)) : Outcome TokenBatch := do
  let seqLen := (sequences.head?.map List.length).getD 0
  ensure (∀ s ∈ sequences, s.length = seqLen) (.shape .raggedSequences)
  ofIds sequences.flatten sequences.length seqLen

def size (t : TokenBatch) : Nat := t.ids.length

/-- The id at a position of a sequence. A position past the end of the sequence
reaches into the ones after it. -/
def get (t : TokenBatch) (b position : Nat) : Outcome Int := do
  let start ← Word.mul b t.seqLen
  let index ← Word.add start position
  match t.ids[index]? with
  | some id => .ok id
  | none => .error .fault

end TokenBatch

/-- The id in the vocabulary that is nearest to `id`. The largest id is read as a
signed word, so a vocabulary of more than 2^63 ids has none. -/
def clampToVocab (id : Int) (vocabSize : Nat) : Outcome Nat :=
  let largest := Word.toSigned (vocabSize - 1)
  if 0 ≤ largest then .ok (max 0 (min id largest)).toNat else .error .fault

end ShardedModel
