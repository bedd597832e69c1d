import VllmOxide.Engine.Sequence
import VllmOxide.Engine.BlockPool
import VllmOxide.Attention.Metadata
import VllmOxide.Engine.Step
import VllmOxide.Engine.Scheduler
import VllmOxide.Library.Holders
import VllmOxide.Pool.Ledger
import VllmOxide.Pool.Release
import VllmOxide.Pool.PrefixIdentity
import VllmOxide.Pool.Invariant
import VllmOxide.Library.Lists
import VllmOxide.Pool.Operations
import VllmOxide.Pool.Append
import VllmOxide.Pool.Slots
import VllmOxide.Pool.Lookup
import VllmOxide.Library.Transaction
import VllmOxide.Library.Checked
import VllmOxide.Pool.Transactions
import VllmOxide.Pool.Index
import VllmOxide.Pool.Reachable
import VllmOxide.Pool.Hygiene
import VllmOxide.Pool.Agreement
import VllmOxide.Pool.Incremental
import VllmOxide.Scheduling.Invariant
import VllmOxide.Scheduling.Preempt
import VllmOxide.Scheduling.Admit
import VllmOxide.Scheduling.Reserve
import VllmOxide.Scheduling.Select
import VllmOxide.Scheduling.Plan
import VllmOxide.Scheduling.Apply
import VllmOxide.Scheduling.Transitions
import VllmOxide.Library.Outcome
import VllmOxide.Library.Run
import VllmOxide.Library.Tensor
import VllmOxide.System.Engine
import VllmOxide.System.Ownership
import VllmOxide.System.Order
import VllmOxide.Llm.Initialization
import VllmOxide.System.Progress
import VllmOxide.System.Rounds
import VllmOxide.System.Termination
import VllmOxide.System.Oldest
import VllmOxide.System.Livelock
import VllmOxide.System.Track
import VllmOxide.System.Accounting
import VllmOxide.Llm.Outputs
import VllmOxide.System.Completion
import VllmOxide.System.Results
import VllmOxide.Attention.MathLayout
import VllmOxide.Attention.Prepared
import VllmOxide.Attention.Kernels
import VllmOxide.Attention.Math
import VllmOxide.Attention.Window
import VllmOxide.Attention.Dense
import VllmOxide.Attention.Budget
import VllmOxide.Attention.Lifecycle
import VllmOxide.Attention.LifecycleSafety
import VllmOxide.Attention.Packed
import VllmOxide.Attention.Rows
import VllmOxide.Attention.Gather
import VllmOxide.Attention.Independence
import VllmOxide.Attention.Addresses
import VllmOxide.Scheduling.Selection
import VllmOxide.Scheduling.Blocked
import VllmOxide.System.WellFormed
import VllmOxide.System.Admission
import VllmOxide.System.WaitingBound
import VllmOxide.Library.FloatOrder
import VllmOxide.Library.Json
import VllmOxide.GoldenCapture.FixedPrefix
import VllmOxide.GoldenCapture.Replay
import VllmOxide.System.Decoding
import VllmOxide.GoldenCapture.ForcedRun
import VllmOxide.GoldenCapture.ForcedCall
import VllmOxide.Library.Extended
import VllmOxide.Library.StableSort
import VllmOxide.Library.RunningSum
import VllmOxide.Sampler.Host
import VllmOxide.Sampler.HistoryCounts
import VllmOxide.Sampler.Shift
import VllmOxide.Sampler.Wide
import VllmOxide.Sampler.Device
import VllmOxide.Sampler.Filters
import VllmOxide.Library.LowerBound
import VllmOxide.Sampler.Prepare
import VllmOxide.Sampler.History
import VllmOxide.Sampler.Isolation
import VllmOxide.Release.EndMarkers
import VllmOxide.Release.LogicalPath
import VllmOxide.Library.FileTree
import VllmOxide.Release.Inventory
import VllmOxide.Release.Header
import VllmOxide.Release.Materialise
import VllmOxide.Library.ByteReader
import VllmOxide.Release.Install
import VllmOxide.Scheduling.Uncached
import VllmOxide.Machine.Network
import VllmOxide.Machine.Steps
import VllmOxide.Machine.Soundness
import VllmOxide.Machine.EngineStep
import VllmOxide.Machine.PrefixCache
import VllmOxide.Machine.Transparency
import VllmOxide.Machine.Calls
import VllmOxide.Machine.Sessions
import VllmOxide.Llm.Generate
import VllmOxide.GoldenCapture.Capture
import VllmOxide.GoldenCapture.CaptureWire
import VllmOxide.GoldenCapture.CaptureLatch
import VllmOxide.GoldenCapture.CapturePublish
import VllmOxide.GoldenCapture.CaptureReader
import VllmOxide.GoldenCapture.CaptureRows
import VllmOxide.GoldenCapture.CaptureOrder
import VllmOxide.GoldenCapture.CaptureChecks
import VllmOxide.GoldenCapture.CaptureRoundTrip
