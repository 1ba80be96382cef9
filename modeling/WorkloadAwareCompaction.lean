import WorkloadAwareCompaction.Library.StepSystem
import WorkloadAwareCompaction.Library.Simulation
import WorkloadAwareCompaction.Library.Gate
import WorkloadAwareCompaction.Library.Binary64
import WorkloadAwareCompaction.Library.Bucket
import WorkloadAwareCompaction.Library.AgeOrder
import WorkloadAwareCompaction.Library.Layers
import WorkloadAwareCompaction.Library.CharStream
import WorkloadAwareCompaction.Library.MachineInt
import WorkloadAwareCompaction.Library.Numeral
import WorkloadAwareCompaction.Library.Decimal
import WorkloadAwareCompaction.Library.Columns
import WorkloadAwareCompaction.Library.OStream
import WorkloadAwareCompaction.Library.SortedList
import WorkloadAwareCompaction.Tree.Metadata
import WorkloadAwareCompaction.Tree.Structure
import WorkloadAwareCompaction.Tree.Compaction
import WorkloadAwareCompaction.Tree.Addressing
import WorkloadAwareCompaction.Tree.Levels
import WorkloadAwareCompaction.Tree.System
import WorkloadAwareCompaction.Tree.Reachable
import WorkloadAwareCompaction.Tree.Promotion
import WorkloadAwareCompaction.Tree.Recency
import WorkloadAwareCompaction.Tree.Reads
import WorkloadAwareCompaction.Tree.RunCount
import WorkloadAwareCompaction.Tree.Bytes
import WorkloadAwareCompaction.Tree.Depth
import WorkloadAwareCompaction.Tree.Rewriting
import WorkloadAwareCompaction.Tree.WriteAmplification
import WorkloadAwareCompaction.Tree.ReadAmplification
import WorkloadAwareCompaction.Tree.Trigger
import WorkloadAwareCompaction.Tree.Concurrent
import WorkloadAwareCompaction.Tree.Overlap
import WorkloadAwareCompaction.Tree.Serial
import WorkloadAwareCompaction.Tree.Snapshot
import WorkloadAwareCompaction.Tree.ConcurrentReads
import WorkloadAwareCompaction.Tree.Selection
import WorkloadAwareCompaction.Tree.Collection
import WorkloadAwareCompaction.Tree.FailedCompaction
import WorkloadAwareCompaction.Setup.Environment
import WorkloadAwareCompaction.Setup.FlagValues
import WorkloadAwareCompaction.Setup.ArgumentParser
import WorkloadAwareCompaction.Setup.Arguments
import WorkloadAwareCompaction.Setup.CommandLine
import WorkloadAwareCompaction.Setup.Settings
import WorkloadAwareCompaction.Setup.Options
import WorkloadAwareCompaction.Setup.Sizes
import WorkloadAwareCompaction.Setup.Accepted
import WorkloadAwareCompaction.Setup.FileSize
import WorkloadAwareCompaction.Replay.Workload
import WorkloadAwareCompaction.Replay.Passes
import WorkloadAwareCompaction.Replay.RoundTrip
import WorkloadAwareCompaction.Replay.Grammar
import WorkloadAwareCompaction.Replay.Outcome
import WorkloadAwareCompaction.Replay.Progress
import WorkloadAwareCompaction.Replay.Timing
import WorkloadAwareCompaction.Replay.Ranges
import WorkloadAwareCompaction.Replay.StatsLog
import WorkloadAwareCompaction.Stats.Derived
import WorkloadAwareCompaction.Listener.Compactions
import WorkloadAwareCompaction.Logging.Buffer
import WorkloadAwareCompaction.Logging.Process
import WorkloadAwareCompaction.Logging.Log
import WorkloadAwareCompaction.Logging.Failure
import WorkloadAwareCompaction.Logging.Signal
import WorkloadAwareCompaction.Program.WorkloadLog
import WorkloadAwareCompaction.Program.Main
