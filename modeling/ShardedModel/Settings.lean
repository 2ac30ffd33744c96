import ShardedModel.Coordinator
import ShardedModel.Files.Path

/-!
# Settings

What a deployment can choose: the sizes of the model and where its parameters come
from, how the vocabulary is cut, how calls are executed, and what is logged where.

`validate` accepts settings under which a plan and a graph can be made, and refuses
others with the first thing that is wrong, in a fixed order.
-/

namespace ShardedModel

structure ModelSettings where
  vocabSize : Nat
  embeddingDim : Nat
  seqLen : Nat
  /-- The seed of parameters that are not read from a file. -/
  seed : Nat
  paramsPath : Option String
deriving DecidableEq, Repr

structure ShardingSettings where
  shardCount : Nat
  topK : Nat
deriving DecidableEq, Repr

structure ExecutorSettings where
  timeoutMs : Nat
  coalesceCopies : Bool
deriving DecidableEq, Repr

structure LoggingSettings where
  level : String
  logToFile : Bool
  logDir : String
deriving DecidableEq, Repr

structure Settings where
  model : ModelSettings
  sharding : ShardingSettings
  executor : ExecutorSettings
  logging : LoggingSettings
deriving DecidableEq, Repr

namespace Settings

/-- The settings of a deployment that chooses nothing. -/
def standard : Settings where
  model := ⟨50272, 1600, 256, 42, none⟩
  sharding := ⟨2, 4⟩
  executor := ⟨30000, true⟩
  logging := ⟨"info", false, "~/.vocabshard/logs"⟩

def logLevels : List String := ["trace", "debug", "info", "warn", "error"]

/-- A log level in any mixture of upper and lower case. A letter outside ASCII is never
a variant of one in these words. -/
def isLogLevel (level : String) : Bool :=
  logLevels.contains (String.ofList (level.toList.map Char.toLower))

def validate (s : Settings) : Outcome Unit := do
  let vocabSize := s.model.vocabSize
  let shardCount := s.sharding.shardCount
  let topK := s.sharding.topK
  ensure (shardCount ≠ 0) (.config .shardCountZero)
  ensure (shardCount ≤ vocabSize) (.config (.vocabBelowShardCount vocabSize shardCount))
  ensure (topK ≠ 0) (.config .topKZero)
  let narrowest := vocabSize / shardCount
  ensure (topK ≤ narrowest) (.config (.topKAboveWidth topK narrowest))
  ensure (s.model.embeddingDim ≠ 0 ∧ s.model.seqLen ≠ 0) (.config .dimensionZero)
  ensure (s.executor.timeoutMs ≠ 0) (.config .timeoutZero)
  ensure (isLogLevel s.logging.level = true) (.config .unknownLogLevel)

/-! ## What the settings mean -/

/-- The options of the calls of a coordinator. -/
def callOptions (s : Settings) : CallOptions := ⟨s.executor.timeoutMs, s.executor.coalesceCopies⟩

/-- The parameter file, if there is one. -/
def paramsFile (s : Settings) (home : Option String) : Option String :=
  s.model.paramsPath.map (Path.expandHome home)

/-- The directory for log files. -/
def logDirectory (s : Settings) (home : Option String) : String :=
  Path.expandHome home s.logging.logDir

/-- Where settings are kept unless another place is named. -/
def standardPath (home : Option String) : Outcome String :=
  match home with
  | some home => .ok (Path.below (Path.below home ".vocabshard") "config.toml")
  | none => .error (.config .noHome)

end Settings

end ShardedModel
