import ShardedModel.Coordinator

/-!
# A coordinator in one line

For diagnosis a coordinator is shown with its plan and its options, field by field.
A time is shown in seconds with as many decimals as it needs, or below one second in
milliseconds.
-/

namespace ShardedModel

/-- A number of thousandths as the digits after a decimal point, with the point, and
nothing if there are none. -/
def thousandthsText (n : Nat) : String :=
  let digits := [n / 100 % 10, n / 10 % 10, n % 10]
  let needed := (digits.reverse.dropWhile (· = 0)).reverse
  if needed.isEmpty then "" else "." ++ String.join (needed.map toString)

def durationText (ms : Nat) : String :=
  if ms = 0 then "0ns"
  else if ms < 1000 then s!"{ms}ms"
  else s!"{ms / 1000}" ++ thousandthsText (ms % 1000) ++ "s"

/-- Fields between braces. -/
def recordText (name : String) (fields : List String) : String :=
  name ++ " \x7b " ++ ", ".intercalate fields ++ " \x7d"

def Shard.describe (s : Shard) : String :=
  recordText "ShardSpec" [s!"shard_id: {s.id}", s!"global_lo: {s.lo}", s!"global_hi: {s.hi}",
    s!"shard_count: {s.shardCount}", s!"vocab_size: {s.vocabSize}"]

def Plan.describe (p : Plan) : String :=
  recordText "ShardPlan" [s!"vocab_size: {p.vocabSize}",
    "shards: [" ++ ", ".intercalate (p.shards.map (·.describe)) ++ "]"]

def CallOptions.describe (o : CallOptions) : String :=
  recordText "InferenceConfig" ["timeout: " ++ durationText o.timeoutMs,
    s!"coalesce_copies: {o.coalesce}"]

def Coordinator.describe {α : Type} (c : Coordinator α) : String :=
  recordText "InferenceCoordinator" ["plan: " ++ c.plan.describe, "config: " ++ c.options.describe,
    ".."]

end ShardedModel
