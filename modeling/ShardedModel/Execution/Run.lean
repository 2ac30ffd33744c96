import ShardedModel.Execution.Value
import ShardedModel.Graph.Build

/-!
# Running a graph

A graph is prepared once, which checks it and its parameters and fixes the
schedule, and can then run on any number of token batches. It runs wave by wave.
The nodes of a wave are independent of each other: each computation is a task of
its own, and the wave ends when all of its tasks have. Input and copies are no
tasks; they hand on a value that is there.

Tasks end in an order that nobody controls, so the outcome of a wave is read off
the results without regard to it. If a task faulted, the run has failed to execute;
else the failing node with the lowest id decides; else all values are there.

A run has a deadline. Time does not pass in this model, with one exception: an
executor can be starved, so that no task ever begins, and then the deadline passes
at the first wave that has one.
-/

namespace ShardedModel

variable {α : Type}

/-! ## Computing a node -/

/-- The value of an operation that reads exactly one. -/
def single (inputs : List (Value α)) : Outcome (Value α) :=
  match inputs with
  | [v] => .ok v
  | _ => .error (.execution (.inputCount inputs.length))

/-- Computes an operation from the values it reads. -/
def Operation.evaluate [Zero α] [Add α] [Mul α] [Ord α] (op : Operation)
    (inputs : List (Value α)) (plan : Plan) (params : Parameters α) : Outcome (Value α) :=
  match op with
  | .gather id => do
      let shard ← plan.shard id
      let slice ← params.slice id
      let input ← single inputs
      let tokens ← input.asTokens
      let g ← ShardedModel.gather shard slice tokens
      .ok (.gathered g)
  | .accumulate => do
      let results ← inputs.mapM (·.asGathered)
      let embeddings ← combine results plan
      .ok (.combined embeddings)
  | .stageA => do
      let input ← single inputs
      let embeddings ← input.asCombined
      let scores ← params.projection.applyStageA embeddings
      .ok (.scores scores)
  | .stageB => do
      let input ← single inputs
      let scores ← input.asScores
      let hidden ← params.projection.applyStageB scores
      .ok (.hidden hidden)
  | .shardLogits id => do
      let shard ← plan.shard id
      let slice ← params.slice id
      let input ← single inputs
      let hidden ← input.asHidden
      let l ← ShardedModel.shardLogits shard slice hidden
      .ok (.logits l)
  | .localTopK id k => do
      let shard ← plan.shard id
      let input ← single inputs
      let logits ← input.asLogits
      let l ← ShardedModel.localTopK shard logits k
      .ok (.topK l)
  | .merge k => do
      let locals ← inputs.mapM (·.asTopK)
      let p ← ShardedModel.merge locals plan k
      .ok (.prediction p)
  | .input | .copy _ => .error (.execution (.notComputed op))

/-! ## Waves of tasks -/

/-- A graph that was checked together with its parameters, and its schedule. -/
structure Prepared (α : Type) where
  graph : Graph
  params : Parameters α
  waves : List (List NodeId)

namespace Prepared

def prepare (graph : Graph) (params : Parameters α) : Outcome (Prepared α) := do
  graph.validate
  params.validate graph.plan
  let waves ← graph.waves
  .ok ⟨graph, params, waves⟩

/-- The number of candidates that the first merge keeps. -/
def topK? (p : Prepared α) : Option Nat :=
  p.graph.nodes.findSome? fun n =>
    match n.op with
    | .merge k => some k
    | _ => none

end Prepared

/-- The values of the nodes that have run. -/
abbrev Values (α : Type) := List (NodeId × Value α)

/-- What is to be done for a node: nothing, since its value is there, or a
computation. -/
inductive Task (α : Type) where
  | handOn (v : Value α)
  | compute (op : Operation) (inputs : List (Value α))

namespace Task

def isCompute : Task α → Bool
  | .handOn _ => false
  | .compute .. => true

/-- The values that a node reads, where `look` finds the value of a node that has run. -/
def readInputs (look : NodeId → Option (Value α)) (n : Node) : Outcome (List (Value α)) :=
  n.inputs.mapM fun v =>
    match look v.node with
    | some x => .ok x
    | none => .error (.execution (.inputNotReady n.id v.node))

/-- The task of a node that reads `inputs`. -/
def ofInputs (tokens : TokenBatch) (n : Node) (inputs : List (Value α)) : Outcome (Task α) :=
  match n.op with
  | .input => .ok (.handOn (.tokens tokens))
  | .copy _ =>
      match inputs with
      | source :: _ => .ok (.handOn source)
      | [] => .error (.execution (.copyWithoutSource n.id))
  | op => .ok (.compute op inputs)

/-- The task of a node, once the values it reads are there. -/
def ofNode (tokens : TokenBatch) (look : NodeId → Option (Value α)) (n : Node) :
    Outcome (Task α) := do
  let inputs ← readInputs look n
  ofInputs tokens n inputs

def result [Zero α] [Add α] [Mul α] [Ord α] (plan : Plan) (params : Parameters α) :
    Task α → Outcome (Value α)
  | .handOn v => .ok v
  | .compute op inputs => op.evaluate inputs plan params

end Task

/-- The outcome of a wave from the results of its tasks, in whatever order they
ended. -/
def settle (results : List (NodeId × Outcome (Value α))) : Outcome (Values α) :=
  let faulted := results.any fun
    | (_, .error .fault) => true
    | _ => false
  if faulted then
    .error (.execution .taskFault)
  else
    (results.mergeSort (·.1 ≤ ·.1)).mapM fun (id, result) => result.map (id, ·)

/-- How long a run may take, and whether its tasks get to run at all. -/
structure Executor where
  timeoutMs : Nat
  starved : Bool
deriving DecidableEq, Repr

/-- Thirty seconds, and tasks run. -/
def Executor.standard : Executor := ⟨30000, false⟩

section Run

variable [Zero α] [Add α] [Mul α] [Ord α]

/-- Runs one wave, when `values` are there. -/
def Prepared.runWave (p : Prepared α) (executor : Executor) (tokens : TokenBatch)
    (values : Values α) (wave : List NodeId) : Outcome (Values α) := do
  let tasks ← wave.mapM fun id => do
    let n ← p.graph.node id
    let task ← Task.ofNode tokens (values.lookup ·) n
    .ok (id, task)
  ensure (¬ (executor.starved ∧ tasks.any (·.2.isCompute))) (.timeout executor.timeoutMs)
  let new ← settle (tasks.map fun (id, task) => (id, task.result p.graph.plan p.params))
  .ok (values ++ new)

/-- Runs all waves: the values of all nodes. -/
def Prepared.runWaves (p : Prepared α) (executor : Executor) (tokens : TokenBatch) :
    Outcome (Values α) :=
  p.waves.foldlM (p.runWave executor tokens) []

/-- Runs a prepared graph on a batch of tokens. -/
def Prepared.run (p : Prepared α) (executor : Executor) (tokens : TokenBatch) :
    Outcome (Prediction α) := do
  let values ← p.runWaves executor tokens
  let output ← p.graph.output
  match values.lookup output.node with
  | some v => v.asPrediction
  | none => .error (.execution .outputNotProduced)

end Run

end ShardedModel
