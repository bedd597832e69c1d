import VllmOxide.Engine.Step

/-!
# The token-level scheduler

One `planStep` may mix prefill and decode work while every participating sequence spends from one
global token budget. Preemption is recompute-only: the blocks of the youngest running sequence
are released and the sequence returns to the front of `waiting`. Each decision is captured in an
immutable `StepPlan`; `applyStepResult` advances the state exactly once for it.

A fallible method takes and returns the scheduler together with the block pool, also when it
fails: an error keeps what was changed before it (`EStateM.Result`).

## Main definitions

* `Scheduler.addRequest`, `Scheduler.planStep`, `Scheduler.applyStepResult`,
  `Scheduler.abortAllRequests`: the interface of the scheduler.
* `Scheduler.selectWork`, `Scheduler.preemptIfNeeded`, `Scheduler.schedulePrefillWithBudget`,
  `Scheduler.reserveDecodeCache`, `Scheduler.rollbackLastAdmission`: the parts of one decision.
-/

namespace VllmOxide

/-- Work selected for one step, before the plan is assembled. -/
structure WorkSelection where
  phase : StepPhase
  isPrefillContinuation : Bool
  blockedAdmission : Option BlockedAdmission

/-- The scheduler: the FIFO `waiting` queue, the `running` queue and the plan in flight. -/
structure Scheduler where
  waiting : List Sequence
  running : List Sequence
  maxNumBatchedTokens : Usize
  maxNumSeqs : Usize
  eosTokenIds : List Token
  nextSeqId : ℕ
  nextRequestId : ℕ
  nextPlanId : ℕ
  inFlight : Option StepPlan

/-- A fallible method of the scheduler that also takes the block pool. -/
abbrev SchedulerM := EStateM StepPlanError (Scheduler × BlockPool)

/-- Change the first element that satisfies `p`. -/
def updateFirst {α : Type} (p : α → Bool) (f : α → α) : List α → List α
  | [] => []
  | x :: xs => if p x then f x :: xs else x :: updateFirst p f xs

namespace Sequence

/-- A sequence that has lost its blocks to a preemption: the complete history becomes the
recovery target. -/
def preempted (seq : Sequence) : Sequence :=
  { seq with
    status := .waiting
    numScheduledTokens := 0
    recomputeTargetTokens := some (max (seq.recomputeTargetTokens.getD 0) seq.numTokens)
    isPrefill := true }

/-- A sequence whose admission is rolled back. -/
def rolledBack (seq : Sequence) : Sequence :=
  { seq with status := .waiting, numScheduledTokens := 0, isPrefill := true }

/-- A sequence admitted with `numTokens` tokens of prefill. -/
def admitted (seq : Sequence) (numTokens : ℕ) : Sequence :=
  { seq with
    numScheduledTokens := numTokens
    isPrefill := decide (seq.numCachedTokens + numTokens < seq.prefillTargetTokens)
    status := .running }

/-- `Scheduler::sequence_phase`. -/
def phase (seq : Sequence) : SequencePhase :=
  if seq.numCachedTokens < seq.prefillTargetTokens then .prefill else .decode

/-- `Scheduler::running_token_count`. -/
def runningTokenCount (seq : Sequence) (budget : ℕ) : ℕ :=
  match seq.phase with
  | .prefill => min (seq.prefillTargetTokens - seq.numCachedTokens) budget
  | .decode => if 0 < budget then 1 else 0

/-- Whether the sequence decodes in the step being selected. -/
def isScheduledDecode (seq : Sequence) : Bool :=
  decide (0 < seq.numScheduledTokens ∧ seq.phase = .decode)

end Sequence

namespace Scheduler

/-- `new_with_eos_token_ids`. -/
def newWithEosTokenIds (maxNumBatchedTokens maxNumSeqs : Usize) (eosTokenIds : List Token) :
    Scheduler where
  waiting := []
  running := []
  maxNumBatchedTokens := maxNumBatchedTokens
  maxNumSeqs := maxNumSeqs
  eosTokenIds := eosTokenIds
  nextSeqId := 0
  nextRequestId := 0
  nextPlanId := 0
  inFlight := none

/-- `add_request`: returns the public request identity. -/
def addRequest (s : Scheduler) (promptTokenIds : List Token) (params : SamplingParams) :
    ℕ × Scheduler :=
  (s.nextRequestId,
    { s with
      nextSeqId := s.nextSeqId + 1
      nextRequestId := s.nextRequestId + 1
      waiting := s.waiting ++
        [Sequence.new s.nextRequestId s.nextSeqId promptTokenIds params] })

/-- `is_running`: whether any request is live. -/
def isRunning (s : Scheduler) : Bool :=
  !s.waiting.isEmpty || !s.running.isEmpty

/-- `scheduled_tokens`. -/
def scheduledTokens (s : Scheduler) : ℕ :=
  (s.running.map (·.numScheduledTokens)).sum

/-- `selected_work`: the phase of the selected work; the first `runningBeforeAdmission` running
sequences were running before this decision. -/
def selectedWork (s : Scheduler) (runningBeforeAdmission : ℕ)
    (blockedAdmission : Option BlockedAdmission) : WorkSelection :=
  let isPrefillWork := fun seq : Sequence =>
    decide (seq.numScheduledTokens ≠ 0 ∧ seq.phase = .prefill)
  let hasPrefill := s.running.any isPrefillWork
  let hasDecode := s.running.any fun seq =>
    decide (seq.numScheduledTokens ≠ 0 ∧ seq.phase = .decode)
  let hasContinuedPrefill := (s.running.take runningBeforeAdmission).any isPrefillWork
  let phase :=
    match hasPrefill, hasDecode with
    | true, true => .mixed
    | true, false => .prefill
    | false, true => .decode
    | false, false => if s.running.any (·.isPrefill) then .prefill else .decode
  { phase := phase
    isPrefillContinuation := hasPrefill && (hasDecode || hasContinuedPrefill)
    blockedAdmission := blockedAdmission }

/-- The loop of `schedule_running`, with `scheduled` tokens already spent. -/
def scheduleRunningFrom (tokenBudget : ℕ) : (scheduled : ℕ) → List Sequence → List Sequence
  | _, [] => []
  | scheduled, seq :: rest =>
    let budget := tokenBudget - scheduled
    if budget = 0 then
      { seq with numScheduledTokens := 0 } :: scheduleRunningFrom tokenBudget scheduled rest
    else
      let numTokens := seq.runningTokenCount budget
      { seq with
        numScheduledTokens := numTokens
        isPrefill := decide (seq.numCachedTokens + numTokens < seq.prefillTargetTokens) } ::
        scheduleRunningFrom tokenBudget (scheduled + numTokens) rest

/-- `schedule_running`. -/
def scheduleRunning (s : Scheduler) (tokenBudget : ℕ) : Scheduler :=
  { s with running := scheduleRunningFrom tokenBudget 0 s.running }

/-- `reset_scheduled_work`. -/
def resetScheduledWork (s : Scheduler) : Scheduler :=
  { s with
    running := s.running.map fun seq =>
      { seq with
        numScheduledTokens := 0
        isPrefill := decide (seq.numCachedTokens < seq.prefillTargetTokens) } }

/-- Write the block tables of the reserved copies back to the sequences they were copied from. -/
def writeBackTables : (running reserved : List Sequence) → List Sequence
  | [], _ => []
  | seq :: rest, reserved =>
    if seq.isScheduledDecode then
      match reserved with
      | [] => seq :: rest
      | copy :: reserved =>
        { seq with blockTable := copy.blockTable } :: writeBackTables rest reserved
    else seq :: writeBackTables rest reserved

/-- `reserve_decode_cache`: reserve the append blocks of the selected decoders, on copies. -/
def reserveDecodeCache : SchedulerM Unit
  | (s, kv) =>
    match s.running.filter Sequence.isScheduledDecode with
    | [] => .ok () (s, kv)
    | first :: rest =>
      match BlockPool.mayAppendBatch (kv, first :: rest) with
      | .error source (kv, _) => .error (.ofPool .appendAllocation first.seqId source) (s, kv)
      | .ok () (kv, reserved) =>
        .ok () ({ s with running := writeBackTables s.running reserved }, kv)

/-- `rollback_last_admission`. -/
def rollbackLastAdmission : SchedulerM Unit
  | (s, kv) =>
    match s.running.getLast? with
    | none =>
      .error (.invalid "cannot roll back admission from an empty running queue") (s, kv)
    | some seq =>
      match kv.deallocate seq with
      | .error source => .error (.ofPool .allocationRollback seq.seqId source) (s, kv)
      | .ok (kv, seq) =>
        .ok ()
          ({ s with running := s.running.dropLast, waiting := seq.rolledBack :: s.waiting }, kv)

/-- The loop over decode batches of `preempt_if_needed`: the sequences that would decode with a
budget of `budget` tokens. -/
def decodeBatch : (budget : ℕ) → List Sequence → List Sequence
  | _, [] => []
  | budget, seq :: rest =>
    let tokens := seq.runningTokenCount budget
    if 0 < tokens ∧ seq.phase = .decode then seq :: decodeBatch (budget - tokens) rest
    else decodeBatch (budget - tokens) rest

/-- The rollback of `schedule_prefill_with_budget` after a failed allocation, from the youngest
scheduled entry to the oldest. -/
def rollbackScheduled : (processed : List (Sequence × Option ℕ)) → BlockPool →
    EStateM.Result StepPlanError (List (Sequence × Option ℕ) × BlockPool) Unit
  | [], kv => .ok () ([], kv)
  | (seq, none) :: rest, kv =>
    match rollbackScheduled rest kv with
    | .error error (rest, kv) => .error error ((seq, none) :: rest, kv)
    | .ok () (rest, kv) => .ok () ((seq, none) :: rest, kv)
  | (seq, some numTokens) :: rest, kv =>
    match kv.deallocate seq with
    | .error source =>
      .error (.ofPool .allocationRollback seq.seqId source) ((seq, some numTokens) :: rest, kv)
    | .ok (kv, seq) =>
      match rollbackScheduled rest kv with
      | .error error (rest, kv) => .error error ((seq, some numTokens) :: rest, kv)
      | .ok () (rest, kv) => .ok () ((seq, some numTokens) :: rest, kv)

variable [HashFunction]

/-- `admission_block`: why the FIFO head cannot be admitted once `scheduledTokens` are spent. -/
def admissionBlock (s : Scheduler) (kv : BlockPool) (scheduledTokens : ℕ) :
    Option BlockedAdmission :=
  match s.waiting with
  | [] => none
  | seq :: _ =>
    if s.maxNumBatchedTokens.val ≤ scheduledTokens then some ⟨seq.requestId, .tokenBudget⟩
    else if s.maxNumSeqs.val ≤ s.running.length then some ⟨seq.requestId, .sequenceLimit⟩
    else if kv.canAllocate seq = none then some ⟨seq.requestId, .kvCache⟩
    else none

/-- Whether a token is reserved for the FIFO waiting head. -/
def reserveAdmissionToken (s : Scheduler) (kv : BlockPool) : Bool :=
  !s.waiting.isEmpty && (s.admissionBlock kv 0).isNone

/-- The budget left for running sequences after the admission reservation. -/
def runningBudget (s : Scheduler) (kv : BlockPool) : ℕ :=
  s.maxNumBatchedTokens.val - (if s.reserveAdmissionToken kv then 1 else 0)

/-- The loop of `preempt_if_needed`. Every round but the last takes one sequence from `running`,
so `running.length + 1` rounds are enough. -/
def preemptLoop : (rounds : ℕ) → SchedulerM Unit
  | 0, state => .ok () state
  | rounds + 1, (s, kv) =>
    if kv.canAppendBatch (decodeBatch (s.runningBudget kv) s.running) then .ok () (s, kv)
    else
      match s.running.getLast? with
      | none => .ok () (s, kv)
      | some victim =>
        match kv.deallocate victim with
        | .error source => .error (.ofPool .deallocation victim.seqId source) (s, kv)
        | .ok (kv, victim) =>
          preemptLoop rounds
            ({ s with running := s.running.dropLast, waiting := victim.preempted :: s.waiting },
              kv)

/-- `preempt_if_needed`: preempt from the back of `running` until the next decode batch can
reserve its blocks. -/
def preemptIfNeeded : SchedulerM Unit
  | (s, kv) => preemptLoop (s.running.length + 1) (s, kv)

/-- The admission loop of `schedule_prefill_with_budget` over the first `slots` entries of the
waiting queue. `processed` holds the visited entries in place, with their scheduled tokens if
they were admitted. -/
def admitLoop (tokenBudget : ℕ) : (slots : ℕ) → (rest : List Sequence) →
    (processed : List (Sequence × Option ℕ)) → (totalTokens : ℕ) → BlockPool →
    EStateM.Result StepPlanError (List (Sequence × Option ℕ) × List Sequence × BlockPool) Unit
  | 0, rest, processed, _, kv => .ok () (processed, rest, kv)
  | _ + 1, [], processed, _, kv => .ok () (processed, [], kv)
  | slots + 1, seq :: rest, processed, totalTokens, kv =>
    if seq.prefillTargetTokens - seq.numCachedTokens = 0 then
      admitLoop tokenBudget slots rest (processed ++ [(seq, none)]) totalTokens kv
    else if tokenBudget - totalTokens = 0 then .ok () (processed, seq :: rest, kv)
    else
      match kv.canAllocate seq with
      | none => .ok () (processed, seq :: rest, kv)
      | some numCached =>
        match BlockPool.allocate numCached (kv, seq) with
        | .error source (kv, seq) =>
          match rollbackScheduled processed.reverse kv with
          | .error error (processed, kv) => .error error (processed.reverse, seq :: rest, kv)
          | .ok () (processed, kv) =>
            .error (.ofPool .allocation seq.seqId source) (processed.reverse, seq :: rest, kv)
        | .ok () (kv, seq) =>
          let numTokens :=
            min (seq.prefillTargetTokens - seq.numCachedTokens) (tokenBudget - totalTokens)
          if numTokens = 0 then
            match kv.deallocate seq with
            | .error source =>
              .error (.ofPool .emptyAllocationRollback seq.seqId source)
                (processed, seq :: rest, kv)
            | .ok (kv, seq) =>
              admitLoop tokenBudget slots rest (processed ++ [(seq, none)]) totalTokens kv
          else
            admitLoop tokenBudget slots rest (processed ++ [(seq, some numTokens)])
              (totalTokens + numTokens) kv

/-- The entries that stay in the waiting queue. -/
def keptEntries (processed : List (Sequence × Option ℕ)) : List Sequence :=
  processed.filterMap fun entry => match entry with
    | (seq, none) => some seq
    | (_, some _) => none

/-- The entries that move to the running queue. -/
def admittedEntries (processed : List (Sequence × Option ℕ)) : List Sequence :=
  processed.filterMap fun entry => match entry with
    | (_, none) => none
    | (seq, some numTokens) => some (seq.admitted numTokens)

/-- `schedule_prefill_with_budget`: admit waiting sequences in queue order within the budget. -/
def schedulePrefillWithBudget (tokenBudget : ℕ) : SchedulerM WorkSelection
  | (s, kv) =>
    if s.waiting = [] then .ok ⟨.prefill, false, none⟩ (s, kv)
    else
      match admitLoop tokenBudget (s.maxNumSeqs.val - s.running.length) s.waiting [] 0 kv with
      | .error error (processed, rest, kv) =>
        .error error ({ s with waiting := processed.map Prod.fst ++ rest }, kv)
      | .ok () (processed, rest, kv) =>
        .ok ⟨.prefill, false, none⟩
          ({ s with
              waiting := keptEntries processed ++ rest
              running := s.running ++ admittedEntries processed }, kv)

omit [HashFunction] in
/-- The reservation loop of `select_work`: roll admissions back from the youngest until the
decode blocks fit. `admissions` is `running.len() - running_before_admission`. -/
def reserveLoop : (admissions : ℕ) → SchedulerM Unit
  | 0, state =>
    match reserveDecodeCache state with
    | .ok () state => .ok () state
    | .error error (s, kv) => .error error (s.resetScheduledWork, kv)
  | admissions + 1, state =>
    match reserveDecodeCache state with
    | .ok () state => .ok () state
    | .error _ state =>
      match rollbackLastAdmission state with
      | .ok () state => reserveLoop admissions state
      | .error error (s, kv) => .error error (s.resetScheduledWork, kv)

/-- `select_work`: preempt, reserve the admission token, schedule running work, admit, and
reserve decode blocks. -/
def selectWork : SchedulerM WorkSelection
  | state =>
    match preemptIfNeeded state with
    | .error error state => .error error state
    | .ok () (s, kv) =>
      let blockedBeforeSelection := s.admissionBlock kv 0
      let runningBudget := s.runningBudget kv
      if s.running ≠ [] then
        let runningBeforeAdmission := s.running.length
        let s := s.scheduleRunning runningBudget
        let runningTokens := s.scheduledTokens
        match schedulePrefillWithBudget (s.maxNumBatchedTokens.val - runningTokens) (s, kv) with
        | .error error (s, kv) => .error error (s.resetScheduledWork, kv)
        | .ok _ (s, kv) =>
          match reserveLoop (s.running.length - runningBeforeAdmission) (s, kv) with
          | .error error state => .error error state
          | .ok () (s, kv) =>
            let blockedAdmission :=
              blockedBeforeSelection.orElse fun _ => s.admissionBlock kv s.scheduledTokens
            .ok (s.selectedWork runningBeforeAdmission blockedAdmission) (s, kv)
      else
        match schedulePrefillWithBudget s.maxNumBatchedTokens.val (s, kv) with
        | .error error state => .error error state
        | .ok prefill (s, kv) =>
          .ok { prefill with
                blockedAdmission :=
                  blockedBeforeSelection.orElse fun _ => s.admissionBlock kv s.scheduledTokens }
            (s, kv)

/-! ### Assembling the plan -/

omit [HashFunction] in
/-- `usize_to_u32`. -/
def usizeToU32 (value : ℕ) (name : String) : Except StepPlanError UInt32 :=
  if value < 4294967296 then .ok (UInt32.ofNat value)
  else .error (.invalid s!"{name} does not fit u32")

omit [HashFunction] in
/-- `i32::try_from` on a block id of a plan. -/
def blockIdToI32 (block : ℕ) : Except StepPlanError ℤ :=
  if block < 2147483648 then .ok block
  else .error (.invalid "cache block id does not fit i32")

omit [HashFunction] in
/-- `block_tables_for_plan`. -/
def blockTablesForPlan (sequences : List SequenceStepPlan) :
    Except StepPlanError (List (List ℤ)) :=
  sequences.mapM fun sequence => sequence.cache.blockTable.mapM blockIdToI32

omit [HashFunction] in
/-- The query lengths of a prefill plan. -/
def scheduledTokenCounts (sequences : List SequenceStepPlan) :
    Except StepPlanError (List UInt32) :=
  sequences.mapM fun sequence => usizeToU32 sequence.tokenBudget "scheduled token count"

omit [HashFunction] in
/-- The key lengths of a plan; `name` is the name used in the error. -/
def kvLengths (name : String) (sequences : List SequenceStepPlan) :
    Except StepPlanError (List UInt32) :=
  sequences.mapM fun sequence => usizeToU32 sequence.cache.kvLength name

omit [HashFunction] in
/-- `build_paged_prefill_plan_metadata`. -/
def buildPagedPrefillPlanMetadata (sequences : List SequenceStepPlan) (slotMapping : List ℤ) :
    Except StepPlanError AttnMetadata := do
  let scheduledTokens ← scheduledTokenCounts sequences
  let lengths ← kvLengths "KV length" sequences
  let blockTables ← blockTablesForPlan sequences
  return buildContinuedPrefillMetadata scheduledTokens lengths blockTables slotMapping

omit [HashFunction] in
/-- The attention metadata of `plan_step` for the selected phase. -/
def planMetadata (selection : WorkSelection) (sequences : List SequenceStepPlan)
    (slotMapping : List ℤ) : Except StepPlanError AttnMetadata :=
  let hasCachedPrefill := sequences.any fun sequence =>
    decide (sequence.phase = .prefill) && !sequence.cache.cachedTokenRange.isEmpty
  match selection.phase with
  | .prefill =>
    if selection.isPrefillContinuation || hasCachedPrefill then
      buildPagedPrefillPlanMetadata sequences slotMapping
    else do
      let scheduledTokens ← scheduledTokenCounts sequences
      let lengths ← kvLengths "KV length" sequences
      return buildPrefillMetadata scheduledTokens lengths slotMapping
  | .decode => do
    let contextLengths ← kvLengths "context length" sequences
    let blockTables ← blockTablesForPlan sequences
    return buildDecodeMetadata contextLengths blockTables slotMapping
  | .mixed => buildPagedPrefillPlanMetadata sequences slotMapping

omit [HashFunction] in
/-- The token range of a scheduled sequence, and whether it may be sampled. -/
def plannedRange (seq : Sequence) : Except StepPlanError (TokenRange × Bool) :=
  match seq.phase with
  | .prefill =>
    match checkedAdd seq.numCachedTokens seq.numScheduledTokens with
    | none => .error (.invalid "scheduled token range overflow")
    | some stop =>
      let stop := min stop seq.prefillTargetTokens
      .ok (⟨seq.numCachedTokens, stop⟩, decide (stop = seq.prefillTargetTokens))
  | .decode =>
    if seq.numTokens = 0 then .error (.invalid "decode sequence has no tokens")
    else .ok (⟨seq.numTokens - 1, seq.numTokens⟩, true)

omit [HashFunction] in
/-- The plan entry of a sequence with its token range and sampling permission. -/
def sequencePlan (kv : BlockPool) (seq : Sequence) (tokenRange : TokenRange)
    (samplingAllowed : Bool) : SequenceStepPlan where
  requestId := seq.requestId
  sequenceId := seq.seqId
  phase := seq.phase
  tokenRange := tokenRange
  logicalPositions := tokenRange
  tokenBudget := tokenRange.len
  cache :=
    { cachedTokenRange := ⟨0, seq.numCachedTokens⟩
      kvLength := tokenRange.stop
      blockTable := seq.blockTable
      slotMapping := kv.computeSlotMapping seq tokenRange.start tokenRange.len }
  samplingAllowed := samplingAllowed
  inputTokenIds := seq.tokenIds.extract tokenRange.start tokenRange.stop
  samplingParams := seq.samplingParams
  tokenHistory := seq.tokenIds
  completionStep := seq.numCompletionTokens

omit [HashFunction] in
/-- The sequence loop of `plan_step`: the running queue it leaves behind, and the entries. -/
def planSequences (kv : BlockPool) :
    List Sequence → List Sequence × Except StepPlanError (List SequenceStepPlan)
  | [] => ([], .ok [])
  | seq :: rest =>
    if seq.numScheduledTokens = 0 then
      let (planned, entries) := planSequences kv rest
      (seq :: planned, entries)
    else
      match plannedRange seq with
      | .error error => (seq :: rest, .error error)
      | .ok (tokenRange, samplingAllowed) =>
        if tokenRange.len = 0 then
          (seq :: rest, .error (.invalid s!"sequence {seq.seqId} has zero-token scheduled work"))
        else
          let (planned, entries) := planSequences kv rest
          ({ seq with numScheduledTokens := tokenRange.len } :: planned,
            entries.map (sequencePlan kv seq tokenRange samplingAllowed :: ·))

/-- `plan_step`: select work and capture it in one immutable plan. -/
def planStep : SchedulerM (Option StepPlan)
  | (s, kv) =>
    match s.inFlight with
    | some plan => .error (.planAlreadyInFlight plan.id) (s, kv)
    | none =>
      match selectWork (s, kv) with
      | .error error state => .error error state
      | .ok selection (s, kv) =>
        match planSequences kv s.running with
        | (running, .error error) => .error error ({ s with running := running }, kv)
        | (running, .ok []) =>
          let s := { s with running := running }
          if s.isRunning then
            .error (.noProgress s.waiting.length s.running.length s.maxNumBatchedTokens.val
              kv.numFreeBlocks selection.blockedAdmission) (s, kv)
          else .ok none (s, kv)
        | (running, .ok (first :: rest)) =>
          let s := { s with running := running }
          let sequences := first :: rest
          match planMetadata selection sequences (sequences.flatMap (·.cache.slotMapping)) with
          | .error error => .error error (s, kv)
          | .ok attention =>
            let plan :=
              { id := s.nextPlanId
                phase := selection.phase
                sequences := sequences
                tokenBudget := (sequences.map (·.tokenBudget)).sum
                attention := attention
                blockedAdmission := selection.blockedAdmission }
            .ok (some plan)
              ({ s with nextPlanId := s.nextPlanId + 1, inFlight := some plan }, kv)

/-! ### Applying a result -/

omit [HashFunction] in
/-- Whether a running sequence is the one a plan entry is about. -/
def isPlanned (planned : SequenceStepPlan) (seq : Sequence) : Bool :=
  decide (seq.requestId = planned.requestId ∧ seq.seqId = planned.sequenceId)

omit [HashFunction] in
/-- The validation loop of `apply_step_result`. -/
def checkResults (planId : ℕ) (running : List Sequence) :
    List (SequenceStepPlan × SequenceStepResult) → Except StepPlanError Unit
  | [] => .ok ()
  | (planned, executed) :: rest =>
    if planned.requestId ≠ executed.requestId ∨ planned.sequenceId ≠ executed.sequenceId then
      .error (.resultMismatch planId s!"expected request {planned.requestId}/sequence {planned.sequenceId}, got request {executed.requestId}/sequence {executed.sequenceId}")
    else if planned.samplingAllowed ≠ executed.sampledToken.isSome then
      .error (.resultMismatch planId s!"sequence {planned.sequenceId} sampling result does not match permission")
    else
      match running.find? (isPlanned planned) with
      | none =>
        .error (.resultMismatch planId s!"sequence {planned.sequenceId} is no longer running")
      | some seq =>
        if seq.status ≠ .running then
          .error (.resultMismatch planId s!"sequence {planned.sequenceId} is not running")
        else checkResults planId running rest

/-- What the apply loop of `apply_step_result` has changed and collected so far. -/
structure ApplyState where
  running : List Sequence
  kv : BlockPool
  outputs : List RequestOutput
  finishedSequenceIds : List ℕ
  recoveredSequenceIds : List ℕ

omit [HashFunction] in
/-- A sequence whose planned tokens are now cached. -/
def advanced (tokenBudget : ℕ) (seq : Sequence) : Sequence :=
  { seq with
    numCachedTokens := min (seq.numCachedTokens + tokenBudget) seq.numTokens
    numScheduledTokens := 0 }

omit [HashFunction] in
/-- Whether a prefill has rebuilt the complete history of a preempted sequence; `seq` is the
sequence after its tokens were counted as cached. -/
def isRecovered (planned : SequenceStepPlan) (seq : Sequence) : Bool :=
  decide (planned.phase = .prefill ∧ planned.samplingAllowed = true ∧
    seq.recomputeTargetTokens = some seq.numCachedTokens)

omit [HashFunction] in
/-- Whether the sequence ends with the token just appended. -/
def hitsStop (eosTokenIds : List Token) (tokenId : Token) (seq : Sequence) : Bool :=
  decide (seq.samplingParams.maxTokens ≤ seq.numCompletionTokens) ||
    (decide (tokenId ∈ eosTokenIds) && !seq.samplingParams.ignoreEos)

omit [HashFunction] in
/-- A sequence with its sampled token appended, and finished if it ends there. -/
def sampled (eosTokenIds : List Token) (tokenId : Token) (seq : Sequence) : Sequence :=
  let seq := seq.appendToken tokenId
  if hitsStop eosTokenIds tokenId seq then { seq with status := .finished } else seq

/-- One round of the apply loop of `apply_step_result`. Membership was validated before, so the
planned sequence is found. -/
def applySequence (eosTokenIds : List Token) (state : ApplyState)
    (entry : SequenceStepPlan × SequenceStepResult) : ApplyState :=
  let (planned, executed) := entry
  match state.running.find? (isPlanned planned) with
  | none => state
  | some seq =>
    let kv := state.kv.hashBlocks seq
    let seq := advanced planned.tokenBudget seq
    let recovered :=
      if isRecovered planned seq then state.recoveredSequenceIds ++ [seq.seqId]
      else state.recoveredSequenceIds
    match executed.sampledToken with
    | none =>
      { state with
        kv := kv
        running := updateFirst (isPlanned planned) (fun _ => seq) state.running
        recoveredSequenceIds := recovered }
    | some tokenId =>
      let seq := sampled eosTokenIds tokenId seq
      let state :=
        { state with
          kv := kv
          running := updateFirst (isPlanned planned) (fun _ => seq) state.running
          recoveredSequenceIds := recovered }
      if seq.status = .finished then
        { state with
          finishedSequenceIds := state.finishedSequenceIds ++ [seq.seqId]
          outputs := state.outputs ++
            [{ requestId := seq.requestId
               tokenIds := seq.completionTokenIds
               text := ""
               finished := true }] }
      else state

omit [HashFunction] in
/-- Clear the recovery target of the sequences that have recovered. -/
def clearRecovered (recoveredSequenceIds : List ℕ) (running : List Sequence) : List Sequence :=
  running.map fun seq =>
    if seq.seqId ∈ recoveredSequenceIds then { seq with recomputeTargetTokens := none } else seq

/-- `apply_step_result`: apply the result of the plan in flight exactly once. -/
def applyStepResult (result : StepResult) : SchedulerM (List RequestOutput)
  | (s, kv) =>
    match s.inFlight with
    | none => .error (.noPlanInFlight result.planId) (s, kv)
    | some plan =>
      if result.planId ≠ plan.id then
        .error (.staleResult plan.id result.planId) (s, kv)
      else if result.sequences.length ≠ plan.sequences.length then
        .error (.resultMismatch plan.id "sequence count differs") (s, kv)
      else
        match checkResults plan.id s.running (plan.sequences.zip result.sequences) with
        | .error error => .error error (s, kv)
        | .ok () =>
          let applied := (plan.sequences.zip result.sequences).foldl
            (applySequence s.eosTokenIds) ⟨s.running, kv, [], [], []⟩
          match applied.finishedSequenceIds with
          | [] =>
            .ok applied.outputs
              ({ s with
                  running := clearRecovered applied.recoveredSequenceIds applied.running
                  inFlight := none }, applied.kv)
          | firstFinishedId :: _ =>
            let isFinished := fun seq : Sequence =>
              decide (seq.seqId ∈ applied.finishedSequenceIds)
            match applied.kv.deallocateBatch (applied.running.filter isFinished) with
            | .error source =>
              .error (.ofPool .deallocation firstFinishedId source)
                ({ s with running := applied.running }, applied.kv)
            | .ok (kv, _) =>
              let running := applied.running.filter fun seq => !isFinished seq
              .ok applied.outputs
                ({ s with
                    running := clearRecovered applied.recoveredSequenceIds running
                    inFlight := none }, kv)

omit [HashFunction] in
/-- `abort_all_requests`: release every block table and abandon every request. -/
def abortAllRequests : SchedulerM Unit
  | (s, kv) =>
    let aborted := { s with running := [], waiting := [], inFlight := none }
    match (s.running ++ s.waiting).filter fun seq => !seq.blockTable.isEmpty with
    | [] => .ok () (aborted, kv)
    | first :: rest =>
      match kv.deallocateBatch (first :: rest) with
      | .error source => .error (.ofPool .failureCleanup first.seqId source) (s, kv)
      | .ok (kv, _) => .ok () (aborted, kv)

end Scheduler

end VllmOxide
