import ShardedModel.Graph.Operation

/-!
# How a computation fails

Every operation of the library answers with a value or with a `Failure`. A
failure names its cause; the wording belongs to one function, `Failure.message`,
so that nothing else depends on it.

`fault` stands apart from the others. It is not a report about the caller's data
but the end of a computation that left its machine: a count that no longer fits
64 bits, a difference below zero, an index past the end, a range whose ends are
the wrong way round, a block too large for any memory. It has no wording, and a task
that faults while a graph runs is reported by the scheduler as a failed execution.
-/

namespace ShardedModel

/-- A planning parameter or a setting that cannot be used. -/
inductive ConfigCause where
  | noShards
  | tooFewIds (vocabSize shardCount : Nat)
  | unknownShard (shard shardCount : Nat)
  | zeroTopK
  | shardCountZero
  | vocabBelowShardCount (vocabSize shardCount : Nat)
  | topKZero
  | topKAboveWidth (topK width : Nat)
  | dimensionZero
  | timeoutZero
  | unknownLogLevel
  | noHome
deriving DecidableEq, Repr

/-- A tensor, a batch or a set of candidates of the wrong shape. -/
inductive ShapeCause where
  | tokenCount (count batch seqLen : Nat)
  | emptyBatch (batch seqLen : Nat)
  | raggedSequences
  | matrixData (count rows cols : Nat)
  | stackData (count batch rows cols : Nat)
  | matrixSum (rows cols otherRows otherCols : Nat)
  | stackSum (shape otherShape : Nat × Nat × Nat)
  | rowSlice (start stop rows : Nat)
  | squeeze (size : Nat)
  | product (rows cols otherRows otherCols : Nat)
  | rowIndex (row rows : Nat)
  | sliceOwner (owner shard : Nat)
  | sliceRows (shard width rows : Nat)
  | stageA (rows cols : Nat)
  | stageB (dim rows cols : Nat)
  | sliceDim (shard dim projectionDim : Nat)
  | tableRows (rows vocabSize : Nat)
  | embeddingDim (expected actual : Nat)
  | sequenceLength (expected actual : Nat)
  | hiddenDim (shard dim hiddenDim : Nat)
  | logitsOwner (owner shard : Nat)
  | logitsWidth (shard width cols : Nat)
  | candidateRows (shard rows expected : Nat)
  | candidateIndex (shard index width : Nat)
deriving DecidableEq, Repr

/-- What shards hand in to be joined. -/
inductive Contribution where
  | gathered
  | candidates
deriving DecidableEq, Repr

/-- A set of shard contributions that is not one for every shard. -/
inductive IncompleteCause where
  | unknownShard (what : Contribution) (shard shardCount : Nat)
  | duplicate (what : Contribution) (shard : Nat)
  | missing (what : Contribution) (shard : Nat)
  | nothingToCombine
  | noSlice (shard : Nat)
  | sliceCount (shardCount slices : Nat)
deriving DecidableEq, Repr

/-- A graph that cannot run as it is placed. -/
inductive PlacementCause where
  | noOutput
  | unknownNode (node : NodeId)
  | unplaced (node : NodeId)
  | noCopySlot (node : NodeId) (slot : Nat)
  | singleOutput (node : NodeId) (slot : Nat)
  | inputCount (found : Nat)
  | noSuchPartition (op : Operation) (partition partitions : Nat)
  | inputArity (op : Operation) (expected found : Nat)
  | weightUnplaced (weight : Weight)
  | weightElsewhere (op : Operation) (partition : PartitionId) (weight : Weight)
      (home : PartitionId)
  | noDestinations (node : NodeId)
  | remoteRead (op : Operation) (partition : PartitionId) (source : NodeId) (home : PartitionId)
  | unschedulable (nodes : List NodeId)
deriving DecidableEq, Repr

/-- The kinds of value that nodes hand to each other. -/
inductive ValueKind where
  | tokens
  | gathered
  | combined
  | scores
  | hidden
  | logits
  | topK
  | prediction
deriving DecidableEq, Repr

/-- A graph run that the scheduler could not carry through. -/
inductive ExecutionCause where
  | inputNotReady (node input : NodeId)
  | copyWithoutSource (node : NodeId)
  | outputNotProduced
  | inputCount (found : Nat)
  | valueKind (expected found : ValueKind)
  | notComputed (op : Operation)
  | taskFault
deriving DecidableEq, Repr

/-- Why the file system refused. -/
inductive FileCause where
  | notFound
  | notADirectory
  | isADirectory
  | alreadyExists
  | nameTooLong
  | nulInPath
  | invalidText
  | other (text : String)
deriving DecidableEq, Repr

/-- Which format could not be written or read. -/
inductive FormatCause where
  | parameters
  | settings
  | integerTooLarge
deriving DecidableEq, Repr

inductive Failure where
  | config (cause : ConfigCause)
  | shape (cause : ShapeCause)
  | incomplete (cause : IncompleteCause)
  | emptyShard (shard available required : Nat)
  | placement (cause : PlacementCause)
  | execution (cause : ExecutionCause)
  | timeout (milliseconds : Nat)
  | file (cause : FileCause)
  | format (cause : FormatCause)
  | fault
deriving DecidableEq, Repr

/-- A value, or the reason why there is none. -/
abbrev Outcome (β : Type) := Except Failure β

/-- Goes on if `p` holds and fails otherwise. -/
def ensure (p : Prop) [Decidable p] (failure : Failure) : Outcome Unit :=
  if p then .ok () else .error failure

/-! ## One value after the other -/

namespace Outcome

variable {β : Type}

/-- The values of `f` at so many numbers from `i` on, after those that are done, which
stand in reverse. -/
def tabulateLoop (f : Nat → Outcome β) : Nat → Nat → List β → Outcome (List β)
  | 0, _, done => .ok done.reverse
  | left + 1, i, done => do
      let x ← f i
      tabulateLoop f left (i + 1) (x :: done)

/-- The values of `f` at the numbers below `count`. The first failure ends it, so a
count need not be small as long as `f` fails early. -/
def tabulate (count : Nat) (f : Nat → Outcome β) : Outcome (List β) := tabulateLoop f count 0 []

theorem tabulateLoop_eq (f : Nat → Outcome β) (left i : Nat) (done : List β) :
    tabulateLoop f left i done = List.mapM.loop f (List.range' i left) done := by
  induction left generalizing i done with
  | zero => rfl
  | succ left ih =>
      simp only [tabulateLoop, List.range'_succ, List.mapM.loop]
      congr 1
      funext x
      exact ih (i + 1) (x :: done)

theorem tabulate_eq_mapM (count : Nat) (f : Nat → Outcome β) :
    tabulate count f = (List.range count).mapM f := by
  rw [List.range_eq_range']
  exact tabulateLoop_eq f count 0 []

end Outcome

/-! ## Wording -/

def ConfigCause.message : ConfigCause → String
  | .noShards => "shard count must be at least 1"
  | .tooFewIds v n => s!"vocab size {v} cannot give each of {n} shards at least one id"
  | .unknownShard s n => s!"shard {s} does not exist in a plan of {n} shards"
  | .zeroTopK => "top-k requires k >= 1"
  | .shardCountZero => "shard_count must be at least 1"
  | .vocabBelowShardCount v n => s!"vocab_size {v} is smaller than shard_count {n}"
  | .topKZero => "top_k must be at least 1"
  | .topKAboveWidth k w => s!"top_k {k} exceeds the narrowest shard width {w}"
  | .dimensionZero => "embedding_dim and seq_len must be at least 1"
  | .timeoutZero => "timeout_ms must be at least 1"
  | .unknownLogLevel => "log level must be one of: trace, debug, info, warn, error"
  | .noHome => "Cannot determine home directory"

/-- The three dimensions of a stack, in parentheses. -/
def stackShape : Nat × Nat × Nat → String
  | (b, r, c) => s!"({b}, {r}, {c})"

def ShapeCause.message : ShapeCause → String
  | .tokenCount n b s => s!"Token count {n} doesn't match shape {b}x{s}"
  | .emptyBatch b s => s!"Token batch must be non-empty, got {b}x{s}"
  | .raggedSequences => "All sequences in a batch must have the same length"
  | .matrixData n r c => s!"Data length {n} doesn't match shape {r}x{c}={r * c}"
  | .stackData n b r c => s!"Data length {n} doesn't match shape {b}x{r}x{c}"
  | .matrixSum r c r2 c2 => s!"Shape mismatch for add: {r}x{c} vs {r2}x{c2}"
  | .stackSum a b => "Shape mismatch for add: " ++ stackShape a ++ " vs " ++ stackShape b
  | .rowSlice a z r => s!"Invalid row slice {a}..{z} for tensor with {r} rows"
  | .squeeze n => s!"cannot squeeze axis 1 of size {n}"
  | .product r c r2 c2 => s!"Matmul shape mismatch: {r}x{c} @ {r2}x{c2}"
  | .rowIndex i r => s!"Row {i} out of bounds for table with {r} rows"
  | .sliceOwner a b => s!"table slice for shard {a} passed to shard {b}"
  | .sliceRows s w r => s!"shard {s} owns {w} ids but its table slice has {r} rows"
  | .stageA r c => s!"stage A must be [embedding_dim, 1], got {r}x{c}"
  | .stageB d r c => s!"stage B must be [seq_len, {d}], got {r}x{c}"
  | .sliceDim s a b => s!"shard {s} embedding dim {a} doesn't match projection dim {b}"
  | .tableRows r v => s!"table has {r} rows but the vocabulary has {v} ids"
  | .embeddingDim e a => s!"stage A expects embedding dim {e}, got {a}"
  | .sequenceLength e a => s!"projection was built for seq_len {e}, got {a}"
  | .hiddenDim s a b => s!"shard {s} table dim {a} doesn't match hidden dim {b}"
  | .logitsOwner a b => s!"logits of shard {a} passed to shard {b}"
  | .logitsWidth s w c => s!"shard {s} owns {w} ids but has {c} logits"
  | .candidateRows s n e => s!"shard {s} returned {n} batch rows, expected {e}"
  | .candidateIndex s i w => s!"shard {s} returned local index {i} but owns {w} ids"

def Contribution.name : Contribution → String
  | .gathered => "gather result"
  | .candidates => "top-k result"

def IncompleteCause.message : IncompleteCause → String
  | .unknownShard w s n => w.name ++ s!" from unknown shard {s} (plan has {n} shards)"
  | .duplicate w s => "duplicate " ++ w.name ++ s!" from shard {s}"
  | .missing w s => "missing " ++ w.name ++ s!" from shard {s}"
  | .nothingToCombine => "no gather results to combine"
  | .noSlice s => s!"no table slice for shard {s}"
  | .sliceCount n m => s!"plan has {n} shards but {m} table slices were supplied"

def PlacementCause.message : PlacementCause → String
  | .noOutput => "graph has no output"
  | .unknownNode n => s!"unknown node {n}"
  | .unplaced n => s!"node {n} is not placed"
  | .noCopySlot n s => s!"copy {n} has no output slot {s}"
  | .singleOutput n s => s!"node {n} has a single output, slot {s} requested"
  | .inputCount n => s!"graph needs exactly one input node, found {n}"
  | .noSuchPartition op p n => op.label ++ s!" placed on partition {p} but only {n} exist"
  | .inputArity op e n => op.label ++ s!" takes {e} inputs, has {n}"
  | .weightUnplaced w => "weight " ++ w.name ++ " is not placed"
  | .weightElsewhere op p w h =>
      op.label ++ s!" on partition {p} reads " ++ w.name ++ s!" held on partition {h}"
  | .noDestinations n => s!"copy {n} has no destinations"
  | .remoteRead op p n h =>
      op.label ++ s!" on partition {p} reads node {n} from partition {h} without a copy"
  | .unschedulable ns =>
      "graph has a cycle or a dangling input among nodes " ++ bracketed ns

def ValueKind.name : ValueKind → String
  | .tokens => "Tokens"
  | .gathered => "Gathered"
  | .combined => "Combined"
  | .scores => "Scores"
  | .hidden => "Hidden"
  | .logits => "Logits"
  | .topK => "TopK"
  | .prediction => "Prediction"

def ExecutionCause.message : ExecutionCause → String
  | .inputNotReady n i => s!"node {n} scheduled before its input {i}"
  | .copyWithoutSource n => s!"copy {n} has no source"
  | .outputNotProduced => "graph output was never produced"
  | .inputCount n => s!"expected one input, got {n}"
  | .valueKind e f => "expected " ++ e.name ++ " value, got " ++ f.name
  | .notComputed op => op.label ++ " is resolved by the scheduler"
  | .taskFault => "task failed to run to its end"

def FileCause.message : FileCause → String
  | .notFound => "No such file or directory (os error 2)"
  | .notADirectory => "Not a directory (os error 20)"
  | .isADirectory => "Is a directory (os error 21)"
  | .alreadyExists => "File exists (os error 17)"
  | .nameTooLong => "File name too long (os error 36)"
  | .nulInPath => "file name contained an unexpected NUL byte"
  | .invalidText => "stream did not contain valid UTF-8"
  | .other text => text

def FormatCause.message : FormatCause → String
  | .parameters => "not an encoded parameter set"
  | .settings => "not a settings file"
  | .integerTooLarge => "an integer does not fit 64 bits with a sign"

/-- The whole text of a failure. A fault has none. -/
def Failure.message : Failure → String
  | .config c => "Configuration error: " ++ c.message
  | .shape c => "Shape error: " ++ c.message
  | .incomplete c => "Incomplete shard set: " ++ c.message
  | .emptyShard s a r => s!"Empty shard result: shard {s} produced {a} candidates, {r} required"
  | .placement c => "Placement error: " ++ c.message
  | .execution c => "Execution error: " ++ c.message
  | .timeout ms => s!"Inference timed out after {ms}ms"
  | .file c => "IO error: " ++ c.message
  | .format c => "Serialization error: " ++ c.message
  | .fault => ""

end ShardedModel
