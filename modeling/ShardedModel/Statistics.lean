import ShardedModel.Word

/-!
# Statistics of inference calls

Counters of 64 bits that go round at their limit, and the figures derived from
them. A call that returned a prediction counts its tokens, its shard tasks and its
copies; a call that failed counts only as failed.
-/

namespace ShardedModel

structure Statistics where
  callsCompleted : Nat
  callsFailed : Nat
  tokensProcessed : Nat
  inferenceMs : Nat
  shardTasks : Nat
  copies : Nat
  graphsPrepared : Nat
deriving DecidableEq, Repr

namespace Statistics

def zero : Statistics := ⟨0, 0, 0, 0, 0, 0, 0⟩

def recordSuccess (s : Statistics) (tokens shardTasks copies ms : Nat) : Statistics :=
  { s with
    callsCompleted := Word.addWrapping s.callsCompleted 1
    tokensProcessed := Word.addWrapping s.tokensProcessed tokens
    shardTasks := Word.addWrapping s.shardTasks shardTasks
    copies := Word.addWrapping s.copies copies
    inferenceMs := Word.addWrapping s.inferenceMs ms }

def recordFailure (s : Statistics) : Statistics :=
  { s with callsFailed := Word.addWrapping s.callsFailed 1 }

def recordPrepare (s : Statistics) : Statistics :=
  { s with graphsPrepared := Word.addWrapping s.graphsPrepared 1 }

def totalCalls (s : Statistics) : Outcome Nat := Word.add s.callsCompleted s.callsFailed

/-- The quotient of two counters, and zero if there is nothing to divide by. -/
def quotient (a b : Nat) : Float :=
  if b = 0 then 0.0 else a.toUInt64.toFloat / b.toUInt64.toFloat

/-- The part of all calls that returned a prediction. -/
def successRate (s : Statistics) : Outcome Float := do
  let total ← s.totalCalls
  .ok (quotient s.callsCompleted total)

/-- The mean time of a call that returned a prediction. -/
def averageLatencyMs (s : Statistics) : Float := quotient s.inferenceMs s.callsCompleted

end Statistics

/-- A time in hours, minutes and seconds, without the leading ones that are
zero. -/
def uptimeText (seconds : Nat) : String :=
  let h := seconds / 3600
  let m := seconds % 3600 / 60
  let s := seconds % 60
  if 0 < h then s!"{h}h {m}m {s}s"
  else if 0 < m then s!"{m}m {s}s"
  else s!"{s}s"

end ShardedModel
