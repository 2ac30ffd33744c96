import ShardedModel.Coordinator
import ShardedModel.Files
import ShardedModel.Parameters.Codec
import ShardedModel.Parameters.Seeded

/-!
# Where parameters come from

Parameters are drawn from a seed or read from a file. Those of a file were written
for some plan, which need not be the one at hand, so they are checked against it.
Drawing is a task of its own: if it faults, a task has failed, and whoever asked for
the parameters goes on.
-/

namespace ShardedModel

inductive ParameterSource where
  | seeded (seed embeddingDim seqLen : Nat)
  | file (path : String)
deriving DecidableEq, Repr

/-- The outcome of a task, for the one who waits for it. -/
def awaited {β : Type} : Outcome β → Outcome β
  | .error .fault => .error (.execution .taskFault)
  | outcome => outcome

namespace ParameterSource

def describe : ParameterSource → String
  | .seeded seed _ _ => s!"seeded(seed={seed})"
  | .file path => s!"file({path})"

section

variable {m : Type → Type} [Monad m] [Files m]

/-- The parameters for a plan. -/
def load (plan : Plan) : ParameterSource → ExceptT Failure m (Parameters Binary32)
  | .seeded seed embeddingDim seqLen =>
      liftExcept (awaited (Parameters.seeded seed.toUInt64 plan embeddingDim seqLen))
  | .file path => do
      let content ← Files.read path
      let params ← liftExcept (Parameters.decode content)
      liftExcept (params.validate plan)
      return params

end

end ParameterSource

section

variable {m : Type → Type} [Monad m] [Files m]

/-- Writes parameters to a file. -/
def Parameters.save (params : Parameters Binary32) (path : String) : ExceptT Failure m Unit :=
  Files.replaceFile path "cbor.tmp" (.ok params.encode)

/-- A coordinator with parameters from a source. -/
def Coordinator.ofSource (plan : Plan) (source : ParameterSource) (options : CallOptions) :
    ExceptT Failure m (Coordinator Binary32) := do
  let params ← source.load plan
  liftExcept (Coordinator.create plan params options)

end

end ShardedModel
