import VllmOxide.Engine.Step
import VllmOxide.Library.FloatOrder
import VllmOxide.Library.Json
import VllmOxide.Library.Outcome
import VllmOxide.Library.Tensor

/-!
# Replay along a frozen history

A replay session drives one call along the continuations of a fixed-prefix plan. After each
executed step it compares the plan of the step with the frozen history of every sampled request,
records the row of raw logits, and replaces the sampled token by the frozen one; without forcing it
only records. The file operations are assumed to succeed: the staged artifact is the list of its
rows.

## Main definitions

* `ReplayMember`, `ReplayPlan`: the frozen plan of a call.
* `ReplaySession`, `ReplaySession.fromEnv`, `ReplaySession.bindRequests`: a session and how it
  starts.
* `ReplaySession.recordAndAdvance`: the hook after each executed step.
* `ReplaySession.finish`: the checks of the finished call and the artifact.
-/

namespace VllmOxide

open FloatOrder

/-- SHA-256, as the hexadecimal digest of a byte string. -/
class Sha256 where
  hexDigest : List UInt8 → String

/-- `u32::to_le_bytes`. -/
def toLeBytes (token : Token) : List UInt8 :=
  [token.toUInt8, (token >>> 8).toUInt8, (token >>> 16).toUInt8, (token >>> 24).toUInt8]

/-- The digest of a history: its tokens as little-endian words. -/
def historyHash [Sha256] (history : List Token) : String :=
  Sha256.hexDigest (history.flatMap toLeBytes)

/-- A request of a fixed-prefix plan with its frozen continuation. -/
structure ReplayMember where
  caseId : String
  memberId : String
  prompt : List Token
  continuation : List Token

/-- A fixed-prefix plan. -/
structure ReplayPlan where
  protocol : String
  schemaVersion : ℕ
  executionGroupId : String
  callId : String
  vocabSize : ℕ
  members : List ReplayMember

/-- A recorded row: the raw logits of one sampled token. -/
structure PredictionRow where
  caseId : String
  executionGroupId : String
  callId : String
  memberId : String
  requestId : ℕ
  step : ℕ
  historySha256 : String
  position : ℕ
  phase : SequencePhase
  effectiveLength : ℕ
  logits : List Float32
  predictedTokenId : Token
  advanceTokenId : Token

/-- The environment of a call: the plan file, whether an output is requested, and the control
flag. -/
structure ReplayEnv where
  request : Option ReplayPlan
  destination : Bool
  control : Option String

/-- A replay session. -/
structure ReplaySession where
  plan : ReplayPlan
  requestIds : List ℕ
  nextRows : List ℕ
  advances : List (List Token)
  control : Bool
  cacheBlocks : Option ℕ
  /-- The rows in the staged file. -/
  file : List PredictionRow
  rows : ℕ
  executionEvents : List Json
  publicParams : List Json
  publicBinding : Option Json

/-- The name of a phase in the artifact. -/
def SequencePhase.name : SequencePhase → String
  | .prefill => "prefill"
  | .decode => "decode"

/-- The object of a row. -/
def PredictionRow.toJson (row : PredictionRow) : Json :=
  .obj [("kind", .str "prediction"), ("case_id", .str row.caseId),
    ("execution_group_id", .str row.executionGroupId), ("call_id", .str row.callId),
    ("member_id", .str row.memberId), ("request_id", .nat row.requestId), ("step", .nat row.step),
    ("history_sha256", .str row.historySha256), ("position", .nat row.position),
    ("phase", .str row.phase.name), ("effective_length", .nat row.effectiveLength),
    ("row_shape", .arr [.nat row.logits.length]), ("logits", .arr (row.logits.map .float)),
    ("predicted_token_id", .nat row.predictedTokenId.toNat),
    ("advance_token_id", .nat row.advanceTokenId.toNat)]

/-- The record of one planned sequence. -/
def SequenceStepPlan.toJson (s : SequenceStepPlan) : Json :=
  .obj [("request_id", .nat s.requestId), ("sequence_id", .nat s.sequenceId),
    ("phase", .str s.phase.name), ("completion_step", .nat s.completionStep),
    ("sampling_allowed", .bool s.samplingAllowed), ("input_token_ids", .tokens s.inputTokenIds),
    ("positions", .arr [.nat s.logicalPositions.start, .nat s.logicalPositions.stop]),
    ("cached_range", .arr [.nat s.cache.cachedTokenRange.start,
      .nat s.cache.cachedTokenRange.stop]),
    ("kv_length", .nat s.cache.kvLength), ("slot_mapping", .arr (s.cache.slotMapping.map .int)),
    ("block_table", .arr (s.cache.blockTable.map .nat))]

/-- The record of one executed step. -/
def StepPlan.toJson (plan : StepPlan) : Json :=
  .obj [("plan_id", .nat plan.id), ("token_budget", .nat plan.tokenBudget),
    ("members", .arr (plan.sequences.map SequenceStepPlan.toJson))]

/-- The public parameters of a request. -/
def SamplingParams.toJson (p : SamplingParams) : Json :=
  .obj [("max_tokens", .nat p.maxTokens), ("ignore_eos", .bool p.ignoreEos),
    ("temperature", .float p.temperature), ("top_k", .option .nat p.topK),
    ("top_p", .option .float p.topP), ("presence_penalty", .float p.presencePenalty),
    ("frequency_penalty", .float p.frequencyPenalty),
    ("repetition_penalty", .float p.repetitionPenalty)]

/-- The rows of a tensor with two axes. -/
def Tensor.toVec2 {R : Type} (t : Tensor R) : List (List R) :=
  match t.dims with
  | [rows, columns] => (List.range rows).map fun i => t.data.extract (i * columns) ((i + 1) * columns)
  | _ => []

namespace ReplayPlan

/-- Whether the identity of the plan or the number of its members is wrong. -/
def isInvalid (plan : ReplayPlan) (numPrompts numParams : ℕ) : Bool :=
  decide (plan.protocol ≠ "layered-accuracy-v1") || decide (plan.schemaVersion ≠ 1) ||
    plan.executionGroupId.isEmpty || plan.callId.isEmpty || decide (plan.vocabSize = 0) ||
    plan.members.isEmpty || decide (plan.members.length ≠ numPrompts) ||
    decide (numParams ≠ numPrompts) ||
    decide ((plan.members.map (·.memberId)).dedup.length ≠ plan.members.length)

end ReplayPlan

namespace ReplayMember

/-- Whether a member does not belong to its prompt, leaves the vocabulary or is not decoded
greedily to the end of its continuation. -/
def mismatches (member : ReplayMember) (vocabSize : ℕ) (prompt : List Token)
    (params : SamplingParams) : Bool :=
  member.memberId.isEmpty || member.caseId.isEmpty || decide (member.prompt ≠ prompt) ||
    member.prompt.isEmpty || member.continuation.isEmpty ||
    (member.prompt ++ member.continuation).any (fun t => decide (vocabSize ≤ t.toNat)) ||
    decide (params.maxTokens ≠ member.continuation.length) || !params.ignoreEos ||
    params.temperature != 0 || params.topK.isSome || params.topP.isSome ||
    params.presencePenalty != 0 || params.frequencyPenalty != 0 || params.repetitionPenalty != 0

end ReplayMember

namespace ReplaySession

/-- `from_env`: the session that the environment asks for, if it asks for one. -/
def fromEnv (env : ReplayEnv) (prompts : List (List Token)) (params : List SamplingParams) :
    Except String (Option ReplaySession) := do
  let control ← match env.control with
    | some value =>
      if value = "1" then pure true
      else throw "fixed-prefix control flag must be absent or exactly 1"
    | none => pure false
  if env.request.isNone && !env.destination then
    if control then throw "orphaned fixed-prefix control flag"
    else return none
  else
    let some plan := env.request | throw "fixed-prefix plan is missing"
    bailIf (env.destination = false) "fixed-prefix output is missing"
    bailIf (plan.isInvalid prompts.length params.length = true)
      "invalid fixed-prefix plan identity or members"
    bailIf ((plan.members.zip (prompts.zip params)).any fun (member, prompt, params) =>
        member.mismatches plan.vocabSize prompt params)
      "fixed-prefix prompt/continuation or neutral greedy/EOS policy mismatch"
    return some
      { plan := plan
        requestIds := []
        nextRows := List.replicate plan.members.length 0
        advances := List.replicate plan.members.length []
        control := control
        cacheBlocks := none
        file := []
        rows := 0
        executionEvents := []
        publicParams := params.map SamplingParams.toJson
        publicBinding := none }

/-- `bind_requests`: the members belong to the accepted requests, in order. -/
def bindRequests (session : ReplaySession) (ids : List ℕ) (cacheBlocks : ℕ) (eos : List Token)
    (maxModelLen : ℕ) (isCuda : Bool) : Except String ReplaySession := do
  bailIf (session.requestIds ≠ [] ∨ ids.length ≠ session.plan.members.length ∨
    ids.dedup.length ≠ ids.length ∨ cacheBlocks = 0) "fixed request binding mismatch"
  return { session with
    requestIds := ids
    cacheBlocks := some cacheBlocks
    publicBinding := some (.obj [("protocol", .str "layered-accuracy-v1"),
      ("schema_version", .nat 1), ("mode", .str "behavior_binding"),
      ("request_ids", .arr (ids.map .nat)),
      ("prompt_lengths", .arr (session.plan.members.map fun m => .nat m.prompt.length)),
      ("eos_token_ids", .tokens eos), ("max_model_len", .nat maxModelLen),
      ("device", .str (if isCuda then "cuda:0" else "cpu")),
      ("forcing_enabled", .bool !session.control)]) }

variable [Sha256]

/-- What `record_and_advance` does for a planned sequence that is sampled, with its row of
logits: the session with the row recorded, and the result with the token to go on with. -/
def recordRow (session : ReplaySession) (planned : SequenceStepPlan)
    (executed : SequenceStepResult) (row : Option (List Float32)) :
    Except String (ReplaySession × SequenceStepResult) := do
  let some memberIndex := session.requestIds.findIdx? (fun id => decide (id = planned.requestId))
    | throw "unbound fixed request"
  let some member := session.plan.members[memberIndex]? | throw "index out of bounds"
  let step := session.nextRows.getD memberIndex 0
  let some frozenAdvance := member.continuation[step]?
    | throw "fixed-prefix execution exceeded frozen rows"
  let advances := session.advances.getD memberIndex []
  let history := member.prompt ++ advances
  bailIf (planned.completionStep ≠ step ∨ planned.tokenHistory ≠ history ∨
    planned.logicalPositions.stop ≠ history.length ∨
    ¬ (planned.tokenRange.start ≤ planned.tokenRange.stop ∧
      planned.tokenRange.stop ≤ history.length ∧
      planned.inputTokenIds = history.extract planned.tokenRange.start planned.tokenRange.stop))
    "executed StepPlan differs from frozen causal history"
  let some raw := row | throw "index out of bounds"
  bailIf (raw.any (fun v => !v.isFinite)) "nonfinite fixed-prefix logits"
  let greedy := lowestArgmax raw
  let some predicted := executed.sampledToken | throw "fixed-prefix prediction missing"
  bailIf (predicted.toNat ≠ greedy) "raw predicted token violates greedy tie contract"
  let advance := if session.control then predicted else frozenAdvance
  let recorded : PredictionRow :=
    { caseId := member.caseId
      executionGroupId := session.plan.executionGroupId
      callId := session.plan.callId
      memberId := member.memberId
      requestId := planned.requestId
      step := step
      historySha256 := historyHash history
      position := history.length - 1
      phase := planned.phase
      effectiveLength := history.length
      logits := raw
      predictedTokenId := predicted
      advanceTokenId := advance }
  return (
    { session with
      file := session.file ++ [recorded]
      advances := session.advances.set memberIndex (advances ++ [advance])
      nextRows := session.nextRows.set memberIndex (step + 1)
      rows := session.rows + 1 },
    if session.control then executed else { executed with sampledToken := some advance })

/-- The loop of `record_and_advance` over the planned sequences and their results, with the rows of
logits that are left. -/
def recordRows : ReplaySession → List (List Float32) → List SequenceStepPlan →
    List SequenceStepResult → Except String (ReplaySession × List SequenceStepResult)
  | session, host, planned :: plans, executed :: results =>
    if planned.samplingAllowed then do
      let (session, executed) ← recordRow session planned executed host.head?
      let (session, results) ← recordRows session host.tail plans results
      return (session, executed :: results)
    else do
      let (session, results) ← recordRows session host plans results
      return (session, executed :: results)
  | session, _, _, results => .ok (session, results)

/-- `record_and_advance`: record an executed step and replace the sampled tokens. -/
def recordAndAdvance (session : ReplaySession) (plan : StepPlan) (result : StepResult)
    (logits : Tensor Float32) : Except String (ReplaySession × StepResult) := do
  let session := { session with executionEvents := session.executionEvents ++ [plan.toJson] }
  let expected := plan.sequences.countP (·.samplingAllowed)
  if expected = 0 then return (session, result)
  else
    bailIf (logits.dims ≠ [expected, session.plan.vocabSize])
      "fixed-prefix raw-logit shape/dtype mismatch"
    let (session, sequences) ←
      recordRows session logits.toVec2 plan.sequences result.sequences
    return (session, { result with sequences := sequences })

omit [Sha256] in
/-- Whether the output of a member is missing, or is not what was recorded for it. -/
def checkOutput (session : ReplaySession) (outputs : List RequestOutput) (index : ℕ)
    (member : ReplayMember) : Except String Unit := do
  let some output := outputs.find? fun o =>
      decide (o.requestId = session.requestIds.getD index 0)
    | throw "fixed output request missing"
  bailIf (session.nextRows.getD index 0 ≠ member.continuation.length ∨
    output.tokenIds ≠ session.advances.getD index [] ∨ output.finished = false)
    "fixed-prefix output/row completeness mismatch"

omit [Sha256] in
/-- The object of an output. -/
def outputJson (output : RequestOutput) : Json :=
  .obj [("request_id", .nat output.requestId), ("token_ids", .tokens output.tokenIds),
    ("text", .str output.text), ("finished", .bool output.finished)]

omit [Sha256] in
/-- The artifact of a call with these outputs. -/
def artifact (session : ReplaySession) (outputs : List RequestOutput) (binding : Json)
    (cacheBlocks : ℕ) : Json :=
  .obj [("protocol", .str "layered-accuracy-v1"), ("schema_version", .nat 1),
    ("execution_group_id", .str session.plan.executionGroupId),
    ("call_id", .str session.plan.callId),
    ("mode", .str (if session.control then "collection_control" else "fixed_prefix")),
    ("ignore_eos", .bool true), ("rows", .arr (session.file.map PredictionRow.toJson)),
    ("execution_events", .arr session.executionEvents),
    ("public_call", .obj [("call_id", .str session.plan.callId),
      ("prompts", .arr (session.plan.members.map fun m => .tokens m.prompt)),
      ("params", .arr session.publicParams), ("binding", binding), ("error", .null),
      ("outputs", .arr (outputs.map outputJson))]),
    ("allocated_cache_blocks", .nat cacheBlocks), ("complete", .bool true)]

omit [Sha256] in
/-- `finish`: the artifact of a call whose outputs are complete. -/
def finish (session : ReplaySession) (outputs : List RequestOutput) : Except String Json := do
  bailIf (outputs.length ≠ session.plan.members.length) "fixed-prefix missing outputs"
  let _ ← session.plan.members.zipIdx.mapM fun (member, index) =>
    session.checkOutput outputs index member
  let some binding := session.publicBinding | throw "missing public request binding"
  let some cacheBlocks := session.cacheBlocks | throw "missing actual cache capacity"
  return session.artifact outputs binding cacheBlocks

end ReplaySession

end VllmOxide
