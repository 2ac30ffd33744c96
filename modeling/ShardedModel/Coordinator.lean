import ShardedModel.Execution.Run
import ShardedModel.Statistics

/-!
# The coordinator of inference calls

A coordinator owns what a deployment needs: a plan, parameters that were checked
against it, an executor, statistics, and the graphs that were prepared so far, one
for each number of candidates that was asked for.

Getting a graph takes three steps: look whether it is there, prepare it if not, and
enter it unless another call has entered one in the meantime. They are functions of
their own, because calls may be interleaved between them. Preparing depends on the
plan, the parameters and the options only, never on the calls before.
-/

namespace ShardedModel

structure CallOptions where
  timeoutMs : Nat
  coalesce : Bool
deriving DecidableEq, Repr

/-- Thirty seconds, and copies are joined. -/
def CallOptions.standard : CallOptions := ⟨30000, true⟩

structure Coordinator (α : Type) where
  plan : Plan
  params : Parameters α
  options : CallOptions
  executor : Executor
  statistics : Statistics
  /-- Prepared graphs by their number of candidates. -/
  prepared : List (Nat × Prepared α)

namespace Coordinator

variable {α : Type}

def create (plan : Plan) (params : Parameters α) (options : CallOptions) :
    Outcome (Coordinator α) := do
  params.validate plan
  .ok ⟨plan, params, options, ⟨options.timeoutMs, false⟩, .zero, []⟩

/-- Takes another executor and drops the graphs prepared on the old one. -/
def withExecutor (c : Coordinator α) (executor : Executor) : Coordinator α :=
  { c with executor, prepared := [] }

/-! ## Prepared graphs -/

/-- First step: a graph that is already there. -/
def lookup (c : Coordinator α) (k : Nat) : Option (Prepared α) := c.prepared.lookup k

/-- Second step: a graph prepared afresh. -/
def prepare (c : Coordinator α) (k : Nat) : Outcome (Prepared α) := do
  let graph ← Graph.build c.plan ⟨k, c.options.coalesce⟩
  Prepared.prepare graph c.params

/-- Part of the second step: one more graph was prepared. -/
def countPrepared (c : Coordinator α) : Coordinator α :=
  { c with statistics := c.statistics.recordPrepare }

/-- Third step: the graph that is there by now, or else the new one, entered. -/
def enter (c : Coordinator α) (k : Nat) (new : Prepared α) : Prepared α × Coordinator α :=
  match c.lookup k with
  | some old => (old, c)
  | none => (new, { c with prepared := c.prepared ++ [(k, new)] })

/-- All three steps, with nothing in between. -/
def preparedGraph (c : Coordinator α) (k : Nat) : Outcome (Prepared α) × Coordinator α :=
  match c.lookup k with
  | some old => (.ok old, c)
  | none =>
    match c.prepare k with
    | .error failure => (.error failure, c)
    | .ok new =>
        let (entry, c) := c.countPrepared.enter k new
        (.ok entry, c)

/-! ## Calls -/

section Calls

variable [Zero α] [Add α] [Mul α] [Ord α]

/-- Prepares a graph and runs it on an executor. -/
def attempt (c : Coordinator α) (executor : Executor) (tokens : TokenBatch) (k : Nat) :
    Outcome (Prepared α × Prediction α) × Coordinator α :=
  match c.preparedGraph k with
  | (.error failure, c) => (.error failure, c)
  | (.ok prepared, c) => ((prepared.run executor tokens).map (prepared, ·), c)

/-- Counts an attempt that took `ms` milliseconds. A fault ends a call before it is
counted. -/
def account (c : Coordinator α) (tokens : TokenBatch) (ms : Nat) :
    Outcome (Prepared α × Prediction α) → Coordinator α
  | .ok (prepared, _) => { c with
      statistics := c.statistics.recordSuccess tokens.size prepared.graph.shardTaskCount
        prepared.graph.copyCount ms }
  | .error .fault => c
  | .error _ => { c with statistics := c.statistics.recordFailure }

/-- One inference call on an executor, which took `ms` milliseconds. -/
def inferOn (c : Coordinator α) (executor : Executor) (tokens : TokenBatch) (k ms : Nat) :
    Outcome (Prediction α) × Coordinator α :=
  let (outcome, c) := c.attempt executor tokens k
  (outcome.map (·.2), c.account tokens ms outcome)

/-- One inference call. -/
def infer (c : Coordinator α) (tokens : TokenBatch) (k ms : Nat) :
    Outcome (Prediction α) × Coordinator α :=
  c.inferOn c.executor tokens k ms

end Calls

end Coordinator

/-- The plan that slices were cut along: there are as many shards as slices, and
the vocabulary is as large as all slices together. -/
def planOfSlices {α : Type} (slices : List (TableSlice α)) : Outcome Plan := do
  let vocabSize ← slices.foldlM (fun sum s => Word.add sum s.table.rows) 0
  Plan.cut vocabSize slices.length

/-- A single call, on a coordinator made for it from slices and a projection. -/
def inferOnce {α : Type} [Zero α] [Add α] [Mul α] [Ord α] (tokens : TokenBatch)
    (slices : List (TableSlice α)) (projection : Projection α) (k : Nat) :
    Outcome (Prediction α) := do
  let plan ← planOfSlices slices
  let c ← Coordinator.create plan ⟨slices, projection⟩ .standard
  (c.infer tokens k 0).1

end ShardedModel
