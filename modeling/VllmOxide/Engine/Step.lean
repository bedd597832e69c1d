import VllmOxide.Attention.Metadata
import VllmOxide.Engine.BlockPool

/-!
# Step plans and step results

The seam between the scheduler and model execution. One immutable `StepPlan` describes the
work of an engine step, one `StepResult` answers it, and `StepPlanError` lists the ways in which
planning or applying can fail.
-/

namespace VllmOxide

/-- Opaque cache-ownership error returned across the scheduler seam. -/
structure KvCacheError where
  message : String
deriving DecidableEq, Repr

/-- `KvCacheError::from`. -/
def KvCacheError.ofBlockPoolError (source : BlockPoolError) : KvCacheError :=
  ⟨source.message⟩

/-- The cache operation that failed. -/
inductive CacheOperation
  | allocation
  | allocationRollback
  | emptyAllocationRollback
  | appendAllocation
  | deallocation
  | failureCleanup
deriving DecidableEq, Repr

/-- Aggregate execution phase of one engine step. -/
inductive StepPhase
  | prefill
  | decode
  | mixed
deriving DecidableEq, Repr

/-- Execution phase of one sequence inside a step. -/
inductive SequencePhase
  | prefill
  | decode
deriving DecidableEq, Repr

/-- Why the FIFO head could not be admitted in a scheduling decision. -/
inductive AdmissionBlockedReason
  | tokenBudget
  | sequenceLimit
  | kvCache
deriving DecidableEq, Repr

/-- A waiting request whose admission is blocked. -/
structure BlockedAdmission where
  requestId : ℕ
  reason : AdmissionBlockedReason
deriving DecidableEq, Repr

/-- A half-open range of logical positions. -/
structure TokenRange where
  start : ℕ
  stop : ℕ
deriving DecidableEq, Repr

namespace TokenRange

/-- The number of positions of the range. -/
def len (range : TokenRange) : ℕ :=
  range.stop - range.start

/-- Whether the range has no position. -/
def isEmpty (range : TokenRange) : Bool :=
  decide (range.stop ≤ range.start)

end TokenRange

/-- Cache state and mappings captured for one planned sequence. -/
structure SequenceCachePlan where
  cachedTokenRange : TokenRange
  kvLength : ℕ
  blockTable : List ℕ
  slotMapping : List ℤ

/-- Immutable work assigned to one sequence within a plan. -/
structure SequenceStepPlan where
  requestId : ℕ
  sequenceId : ℕ
  phase : SequencePhase
  tokenRange : TokenRange
  logicalPositions : TokenRange
  tokenBudget : ℕ
  cache : SequenceCachePlan
  samplingAllowed : Bool
  inputTokenIds : List Token
  samplingParams : SamplingParams
  /-- Full causal history frozen for this step. -/
  tokenHistory : List Token
  /-- Zero-based completion position selected by this plan, when sampling is allowed. -/
  completionStep : ℕ

/-- Immutable description of one scheduler-selected engine step. -/
structure StepPlan where
  id : ℕ
  phase : StepPhase
  sequences : List SequenceStepPlan
  tokenBudget : ℕ
  attention : AttnMetadata
  blockedAdmission : Option BlockedAdmission

/-- Execution result for one planned sequence. -/
structure SequenceStepResult where
  requestId : ℕ
  sequenceId : ℕ
  sampledToken : Option Token
deriving DecidableEq

/-- Result returned for exactly one step plan. -/
structure StepResult where
  planId : ℕ
  sequences : List SequenceStepResult
deriving DecidableEq

/-- One public result for each accepted prompt. -/
structure RequestOutput where
  requestId : ℕ
  tokenIds : List Token
  text : String
  finished : Bool
deriving DecidableEq

/-- The ways in which planning a step or applying its result can fail. -/
inductive StepPlanError
  | invalid (message : String)
  | planAlreadyInFlight (planId : ℕ)
  | noPlanInFlight (resultPlanId : ℕ)
  | staleResult (expectedPlanId resultPlanId : ℕ)
  | resultMismatch (planId : ℕ) (reason : String)
  | cache (operation : CacheOperation) (sequenceId : ℕ) (source : KvCacheError)
  | noProgress (waitingSequences runningSequences tokenBudget freeBlocks : ℕ)
      (blockedAdmission : Option BlockedAdmission)
deriving DecidableEq

/-- A cache error seen by the scheduler. -/
def StepPlanError.ofPool (operation : CacheOperation) (sequenceId : ℕ)
    (source : BlockPoolError) : StepPlanError :=
  .cache operation sequenceId (.ofBlockPoolError source)

end VllmOxide
