import ShardedModel.Chain
import ShardedModel.Coordinator.Description
import ShardedModel.Files.Disk
import ShardedModel.Main
import ShardedModel.Proofs.AcceptedSettings
import ShardedModel.Proofs.ArrivalOrder
import ShardedModel.Proofs.BatchIndependence
import ShardedModel.Proofs.BestScores
import ShardedModel.Proofs.BuiltGraph
import ShardedModel.Proofs.CallHistory
import ShardedModel.Proofs.CallOutcomes
import ShardedModel.Proofs.CborFraming
import ShardedModel.Proofs.ClampedRows
import ShardedModel.Proofs.ConsistentRuns
import ShardedModel.Proofs.CopyPasses
import ShardedModel.Proofs.EarliestWaves
import ShardedModel.Proofs.FileReplacement
import ShardedModel.Proofs.InferenceGraph
import ShardedModel.Proofs.InsertedCopies
import ShardedModel.Proofs.InterleavedCalls
import ShardedModel.Proofs.JoinedGraph
import ShardedModel.Proofs.KernelLoops
import ShardedModel.Proofs.MergedCandidates
import ShardedModel.Proofs.Ownership
import ShardedModel.Proofs.ParameterFiles
import ShardedModel.Proofs.QuotedText
import ShardedModel.Proofs.RecoveredPlans
import ShardedModel.Proofs.Runnable
import ShardedModel.Proofs.Sequences
import ShardedModel.Proofs.SettingsFiles
import ShardedModel.Proofs.SettledCopies
import ShardedModel.Proofs.ShardedLookup
import ShardedModel.Proofs.ShardedScores
import ShardedModel.Proofs.TokenTexts
import ShardedModel.Proofs.Unsharded
