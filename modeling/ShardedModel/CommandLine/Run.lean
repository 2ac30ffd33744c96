import ShardedModel.CommandLine.Arguments
import ShardedModel.CommandLine.Report
import ShardedModel.Parameters.Source
import ShardedModel.Settings.Store
import ShardedModel.TokenText

/-!
# Running commands

A command works on settings: those of the settings file if there is one and the
standard ones otherwise, with what the arguments put in their place. They are checked
when the file is loaded and once more with the overrides.

A command ends with lines to print or with a complaint. A complaint is told as a chain
of texts, from what was attempted to what went wrong. A fault has no texts.
-/

namespace ShardedModel.CommandLine

/-- What commands need of the machine they run on, beside its files. -/
class Host (m : Type → Type) extends Files m where
  home : m (Option String)
  /-- The time, in milliseconds from some beginning. -/
  now : m Nat
  /-- The date, as year, month and day. -/
  today : m String
  /-- A name for a call that no other call has. -/
  newJobId : m String

/-! ## Complaints -/

inductive Complaint where
  | failure (cause : Failure)
  | loading (path : String) (cause : Failure)
  | settingUp (cause : Failure)
  | logging (cause : Failure)
  | badId (id : String) (fault : Numeral.Fault)
  | sequenceLength (found expected : Nat)
deriving DecidableEq, Repr

namespace Complaint

/-- The failure behind a complaint. -/
def cause? : Complaint → Option Failure
  | .failure cause | .loading _ cause | .settingUp cause | .logging cause => some cause
  | _ => none

def chain : Complaint → List String
  | .failure cause => [cause.message]
  | .loading path cause => ["Failed to load " ++ path, cause.message]
  | .settingUp cause => ["Failed to set up inference", cause.message]
  | .logging (.file cause) => [cause.message]
  | .logging cause => [cause.message]
  | .badId id fault => ["Invalid token id '" ++ id ++ "'", fault.message]
  | .sequenceLength found expected =>
      [s!"token sequences have length {found} but the model expects seq_len {expected} "
        ++ "(use --seq-len)"]

end Complaint

/-- How a run of the program ends. -/
inductive Ending where
  | printed (lines : List String)
  | complained (chain : List String)
  | refused
  | faulted
deriving DecidableEq, Repr

namespace Ending

def exitCode : Ending → UInt32
  | .printed _ => 0
  | .complained _ => 1
  | .refused => 2
  | .faulted => 101

def ofComplaint (complaint : Complaint) : Ending :=
  if complaint.cause? = some .fault then .faulted else .complained complaint.chain

end Ending

/-! ## Settings -/

section

variable {m : Type → Type} [Monad m] [Host m]

/-- Goes on with a value, or complains of a failure. -/
def orComplain {β : Type} (complain : Failure → Complaint) (outcome : Outcome β) :
    ExceptT Complaint m β :=
  match outcome with
  | .ok x => pure x
  | .error failure => throw (complain failure)

/-- Runs something that may fail, or complains. -/
def attempting {β : Type} (complain : Failure → Complaint) (action : ExceptT Failure m β) :
    ExceptT Complaint m β := do
  let outcome ← ExceptT.lift action.run
  orComplain complain outcome

def Overrides.apply (o : Overrides) (s : Settings) : Settings :=
  { s with
    model := { s.model with
      vocabSize := o.vocabSize.getD s.model.vocabSize
      embeddingDim := o.dim.getD s.model.embeddingDim
      seqLen := o.seqLen.getD s.model.seqLen }
    sharding := ⟨o.shards.getD s.sharding.shardCount, o.k.getD s.sharding.topK⟩ }

/-- The place of the settings file. -/
def settingsPath (file : Option String) : ExceptT Complaint m String := do
  match file with
  | some path => return path
  | none => orComplain .failure (Settings.standardPath (← (Host.home : m (Option String))))

def loadSettings (file : Option String) (overrides : Overrides) : ExceptT Complaint m Settings := do
  let path ← settingsPath file
  let loaded ←
    if ← (Files.isThere path : m Bool) then attempting (.loading path) (Settings.load path)
    else pure Settings.standard
  let settings := overrides.apply loaded
  orComplain .failure settings.validate
  return settings

/-! ## Commands -/

def generateConfig (output : Option String) (force : Bool) : ExceptT Complaint m (List String) := do
  let path ← settingsPath output
  if !force && (← (Files.isThere path : m Bool)) then
    return [path ++ " already exists (use --force to overwrite)"]
  attempting .failure (Settings.standard.save path)
  return ["✓ Config written to " ++ path]

/-- A failure that nobody is prepared for. -/
def unexpected (_ : Failure) : Complaint := .logging .fault

/-- Opens the log file of the day, if there is to be one. That its directory cannot be
made is a failure like others, but that the file cannot be opened there is a fault. -/
def openLog (s : Settings) : ExceptT Complaint m Unit := do
  if s.logging.logToFile then
    let directory := s.logDirectory (← (Host.home : m (Option String)))
    attempting .logging (Files.makeDirectories directory)
    let name := "vocabshard.log." ++ (← (Host.today : m String))
    attempting unexpected (Files.touch (Path.below directory name))

def readTokens (s : Settings) (text : String) : ExceptT Complaint m TokenBatch := do
  match TokenBatch.ofText text.toList with
  | .error (.badId id fault) => throw (.badId id fault)
  | .error (.batch failure) => throw (.failure failure)
  | .ok tokens =>
    if tokens.seqLen = s.model.seqLen then return tokens
    else throw (.sequenceLength tokens.seqLen s.model.seqLen)

/-- Where the parameters of a deployment come from. -/
def sourceOf (s : Settings) (home : Option String) : ParameterSource :=
  match s.paramsFile home with
  | some path => .file path
  | none => .seeded s.model.seed s.model.embeddingDim s.model.seqLen

def infer (s : Settings) (text : String) : ExceptT Complaint m (List String) := do
  openLog s
  let tokens ← readTokens s text
  let plan ← orComplain .failure (Plan.cut s.model.vocabSize s.sharding.shardCount)
  let home ← (Host.home : m (Option String))
  let coordinator ←
    attempting .settingUp (Coordinator.ofSource plan (sourceOf s home) s.callOptions)
  let jobId ← (Host.newJobId : m String)
  let start ← (Host.now : m Nat)
  let (outcome, coordinator) := coordinator.attempt coordinator.executor tokens s.sharding.topK
  let finish ← (Host.now : m Nat)
  let ms := finish - start
  let coordinator := coordinator.account tokens ms outcome
  let (_, prediction) ← orComplain .failure outcome
  let statistics ← orComplain .failure (statisticsReport coordinator.statistics (ms / 1000))
  return callReport ⟨jobId, tokens.size, ms, prediction⟩ ++ statistics

def runCommand (file : Option String) : Command → ExceptT Complaint m (List String)
  | .generateConfig output force => generateConfig output force
  | .plan overrides => do
      let settings ← loadSettings file overrides
      orComplain .failure (planReport settings)
  | .graph overrides noCoalesce json => do
      let settings ← loadSettings file overrides
      let coalesceCopies := settings.executor.coalesceCopies && !noCoalesce
      let settings := { settings with executor := { settings.executor with coalesceCopies } }
      orComplain .failure (graphReport settings json)
  | .infer tokens overrides params logLevel => do
      let settings ← loadSettings file overrides
      let settings : Settings := { settings with
        model := { settings.model with paramsPath := params.or settings.model.paramsPath }
        logging := { settings.logging with level := logLevel.getD settings.logging.level } }
      orComplain .failure settings.validate
      infer settings tokens

/-- Runs the program on its arguments. -/
def run (arguments : List String) : m Ending := do
  match parse? arguments with
  | none => return .refused
  | some .help => return .printed helpReport
  | some .version => return .printed versionReport
  | some (.run file command) =>
    match ← (runCommand file command).run with
    | .ok lines => return .printed lines
    | .error complaint => return .ofComplaint complaint

end

end ShardedModel.CommandLine
