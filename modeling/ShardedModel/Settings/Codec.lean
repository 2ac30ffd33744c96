import ShardedModel.Settings
import ShardedModel.Toml.Reader

/-!
# Settings files

Settings are kept in a TOML document with a table for each group. Writing gives each
group a header and each setting a line, in a fixed order; a parameter path that is
not set is left out. An integer can be written only if it fits 64 bits with a sign,
and a text that the writer cannot write is a fault. Unless said otherwise, the writer is
the one that counts in a byte.

Reading takes each setting from wherever the document has it and ignores what it does
not know. All settings have to be there, except for the parameter path. A group may
also be an array of its values in order; then none may be missing.
-/

namespace ShardedModel.Settings

/-! ## Writing -/

/-- A line of a settings file. -/
def entryLine (key : String) (value : List Char) : List Char :=
  key.toList ++ " = ".toList ++ value ++ ['\n']

def headerLine (name : String) : List Char := '[' :: name.toList ++ [']', '\n']

def countLine (key : String) (n : Nat) : List Char := entryLine key (toString n).toList

def switchLine (key : String) (b : Bool) : List Char :=
  entryLine key (if b then "true".toList else "false".toList)

def textLine (key : String) (text : String) : List Char := entryLine key (Toml.quoted text.toList)

/-- All integers among the settings. -/
def counts (s : Settings) : List Nat :=
  [s.model.vocabSize, s.model.embeddingDim, s.model.seqLen, s.model.seed, s.sharding.shardCount,
    s.sharding.topK, s.executor.timeoutMs]

/-- All texts among the settings. -/
def texts (s : Settings) : List String :=
  s.model.paramsPath.toList ++ [s.logging.level, s.logging.logDir]

/-- The lines of a settings file. -/
def document (s : Settings) : List Char :=
  headerLine "model"
    ++ countLine "vocab_size" s.model.vocabSize
    ++ countLine "embedding_dim" s.model.embeddingDim
    ++ countLine "seq_len" s.model.seqLen
    ++ countLine "seed" s.model.seed
    ++ (match s.model.paramsPath with
      | some path => textLine "params_path" path
      | none => [])
    ++ ['\n'] ++ headerLine "sharding"
    ++ countLine "shard_count" s.sharding.shardCount
    ++ countLine "top_k" s.sharding.topK
    ++ ['\n'] ++ headerLine "executor"
    ++ countLine "timeout_ms" s.executor.timeoutMs
    ++ switchLine "coalesce_copies" s.executor.coalesceCopies
    ++ ['\n'] ++ headerLine "logging"
    ++ textLine "level" s.logging.level
    ++ switchLine "log_to_file" s.logging.logToFile
    ++ textLine "log_dir" s.logging.logDir

/-- The content of a settings file. Integers are looked at before any text is. -/
def encode (s : Settings) (writer : Toml.Writer := .bytewise) : Outcome (List UInt8) := do
  ensure (∀ n ∈ s.counts, n ≤ Numeral.largestSigned) (.format .integerTooLarge)
  ensure (writer.WritesAll s.texts) .fault
  .ok (String.ofList s.document).toUTF8.toList

/-! ## Reading -/

def count? : Toml.Value → Option Nat
  | .integer n => if 0 ≤ n then some n.toNat else none
  | _ => none

def switch? : Toml.Value → Option Bool
  | .boolean b => some b
  | _ => none

def text? : Toml.Value → Option String
  | .string s => some s
  | _ => none

/-- The values of a group, in the order of `keys`; a missing one is `none`. In an array
the values stand in this order and there are enough of them. -/
def group? (keys : List String) : Toml.Value → Option (List (Option Toml.Value))
  | .table _ entries => some (keys.map fun key => entries.lookup key)
  | .array items =>
      if keys.length ≤ items.length then some ((items.take keys.length).map some) else none
  | _ => none

def model? (v : Toml.Value) : Option ModelSettings := do
  match ← group? ["vocab_size", "embedding_dim", "seq_len", "seed", "params_path"] v with
  | [some vocabSize, some embeddingDim, some seqLen, some seed, paramsPath] =>
      let vocabSize ← count? vocabSize
      let embeddingDim ← count? embeddingDim
      let seqLen ← count? seqLen
      let seed ← count? seed
      match paramsPath with
      | some path => do some ⟨vocabSize, embeddingDim, seqLen, seed, some (← text? path)⟩
      | none => some ⟨vocabSize, embeddingDim, seqLen, seed, none⟩
  | _ => none

def sharding? (v : Toml.Value) : Option ShardingSettings := do
  match ← group? ["shard_count", "top_k"] v with
  | [some shardCount, some topK] => some ⟨← count? shardCount, ← count? topK⟩
  | _ => none

def executor? (v : Toml.Value) : Option ExecutorSettings := do
  match ← group? ["timeout_ms", "coalesce_copies"] v with
  | [some timeoutMs, some coalesceCopies] => some ⟨← count? timeoutMs, ← switch? coalesceCopies⟩
  | _ => none

def logging? (v : Toml.Value) : Option LoggingSettings := do
  match ← group? ["level", "log_to_file", "log_dir"] v with
  | [some level, some logToFile, some logDir] =>
      some ⟨← text? level, ← switch? logToFile, ← text? logDir⟩
  | _ => none

def ofTable? (entries : List (String × Toml.Value)) : Option Settings := do
  let model ← model? (← entries.lookup "model")
  let sharding ← sharding? (← entries.lookup "sharding")
  let executor ← executor? (← entries.lookup "executor")
  let logging ← logging? (← entries.lookup "logging")
  some ⟨model, sharding, executor, logging⟩

/-- The settings in the content of a settings file, which need not be usable. -/
def decode (content : List UInt8) : Outcome Settings :=
  match String.fromUTF8? ⟨content.toArray⟩ with
  | none => .error (.file .invalidText)
  | some text =>
    match (Toml.read? text.toList).bind ofTable? with
    | none => .error (.format .settings)
    | some settings => .ok settings

end ShardedModel.Settings
