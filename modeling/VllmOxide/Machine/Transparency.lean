import VllmOxide.Machine.PrefixCache

/-!
# Scheduling transparency

Whatever the engine does, every output is what the network generates for the prompt alone. Chunked
prefill, mixed batches, prefix hits, rollbacks and preemptions do not show: every live request is at
some point of its own plain decoding, and a token is sampled only from a complete cache.

## Main definitions

* `OnTrack`: a completion that plain decoding passes through.
* `Transparent`: every live request is on track, and every output is a complete decoding.

## Main results

* `EngineConfig.scheduling_transparent`: the outputs of every run.
-/

namespace VllmOxide

variable {V : Type} {model : CausalModel V}

/-! ### Plain decoding, token by token -/

section Decoding

variable {eosTokenIds prompt completion : List Token} {params : SamplingParams}

/-- Plain decoding of a prompt passes through the completion and goes on. -/
structure OnTrack (model : CausalModel V) (eosTokenIds prompt : List Token)
    (params : SamplingParams) (completion : List Token) : Prop where
  lt : completion.length < params.maxTokens
  decode : model.decodeFrom eosTokenIds prompt params (params.maxTokens - completion.length)
    completion = model.decode eosTokenIds prompt params

theorem OnTrack.nil (h : 1 ≤ params.maxTokens) : OnTrack model eosTokenIds prompt params [] :=
  ⟨h, rfl⟩

/-- The token that plain decoding generates after a completion. -/
def CausalModel.nextToken (model : CausalModel V) (prompt : List Token) (params : SamplingParams)
    (completion : List Token) : Token :=
  model.next (model.contents (prompt ++ completion)) (prompt ++ completion) params
    completion.length

/-- One round of plain decoding. -/
theorem OnTrack.round (h : OnTrack model eosTokenIds prompt params completion) {token : Token}
    (htoken : token = model.nextToken prompt params completion) :
    if CausalModel.stops eosTokenIds params completion token then
      completion ++ [token] = model.decode eosTokenIds prompt params
    else OnTrack model eosTokenIds prompt params (completion ++ [token]) := by
  obtain ⟨hlt, hdecode⟩ := h
  obtain ⟨fuel, hfuel⟩ : ∃ fuel, params.maxTokens - completion.length = fuel + 1 :=
    ⟨params.maxTokens - completion.length - 1, by omega⟩
  have hround : model.decodeFrom eosTokenIds prompt params (fuel + 1) completion =
      if CausalModel.stops eosTokenIds params completion token then completion ++ [token]
      else model.decodeFrom eosTokenIds prompt params fuel (completion ++ [token]) := by
    rw [htoken]
    rfl
  rw [hfuel, hround] at hdecode
  split
  · rename_i hstops
    rwa [if_pos hstops] at hdecode
  · rename_i hgoes
    rw [if_neg hgoes] at hdecode
    have hlength : (completion ++ [token]).length = completion.length + 1 := by simp
    have hmore : completion.length + 1 < params.maxTokens := by
      simp only [CausalModel.stops, Bool.or_eq_true, decide_eq_true_eq, not_or, not_le] at hgoes
      exact hgoes.1
    refine ⟨hlength ▸ hmore, ?_⟩
    rw [hlength, show params.maxTokens - (completion.length + 1) = fuel by omega]
    exact hdecode

end Decoding

/-! ### Sampled tokens -/

/-- The stop test of the engine is the one of plain decoding. -/
theorem Sequence.stopsAt_eq_stops {seq : Sequence} (hok : seq.RunningOk)
    (eosTokenIds : List Token) (token : Token) :
    seq.stopsAt eosTokenIds token =
      CausalModel.stops eosTokenIds seq.samplingParams seq.completionTokenIds token := by
  have hlength := length_completionTokenIds hok
  have hle := hok.prompt_le
  have hcount : (seq.appendToken token).numCompletionTokens =
      seq.completionTokenIds.length + 1 := by
    show seq.numTokens + 1 - seq.numPromptTokens = _
    omega
  rw [CausalModel.stops, ← hcount]
  rfl

/-- What an execution has sampled for a sequence. -/
theorem of_samples_resultFor [HashFunction] {st : EngineState} (I : Inv st.1 st.2) {planId : ℕ}
    {seq : Sequence} (hseq : seq ∈ st.1.running) {token : Token}
    (hsamples : Samples (resultFor model planId st.1.running).sequences seq token) :
    token = model.next (model.contents seq.tokenIds) seq.tokenIds seq.samplingParams
      seq.completionTokenIds.length := by
  have hmem : (⟨seq.requestId, seq.seqId, some token⟩ : SequenceStepResult) ∈
      (st.1.running.filter Sequence.isScheduled).map (Sequence.resultOf model) := hsamples.mem
  obtain ⟨q, hq, hresult⟩ := List.mem_map.mp hmem
  have hid : q.seqId = seq.seqId := congrArg SequenceStepResult.sequenceId hresult
  obtain rfl := eq_of_seqId (List.nodup_append.mp I.core.nodup_ids).1 hseq
    (List.mem_of_mem_filter hq) hid
  have htoken : (if q.endsHistory then some (model.next (model.contents q.tokenIds) q.tokenIds
      q.samplingParams q.numCompletionTokens) else none) = some token :=
    congrArg SequenceStepResult.sampledToken hresult
  rw [if_pos hsamples.ends] at htoken
  rw [← Option.some.inj htoken, length_completionTokenIds (I.core.running q hseq)]
  rfl

/-- The event of an accepted request. -/
def Request.AcceptedIn (r : Request) (log : List Event) : Prop :=
  .accepted r.requestId (r.tokenIds.take r.numPromptTokens) r.samplingParams ∈ log

/-- **The invariant.** Every live request is on track, results bring the next token of plain
decoding, and every output is a complete decoding of an accepted prompt. -/
structure Transparent (model : CausalModel V) (eosTokenIds : List Token) (log : List Event)
    (m : Machine V) : Prop where
  accepted_lt : ∀ id prompt params, .accepted id prompt params ∈ log →
    id < m.engine.1.nextRequestId
  accepted_unique : ∀ id prompt params prompt' params', .accepted id prompt params ∈ log →
    .accepted id prompt' params' ∈ log → prompt = prompt' ∧ params = params'
  requests : ∀ r ∈ m.engine.1.requests, r.AcceptedIn log ∧
    OnTrack model eosTokenIds (r.tokenIds.take r.numPromptTokens) r.samplingParams r.completion
  sampled : ∀ executed plan, m.executed = some executed → m.engine.1.inFlight = some plan →
    executed.planId = plan.id → ∀ seq ∈ m.engine.1.running, ∀ token,
      Samples executed.sequences seq token →
      token = model.next (model.contents seq.tokenIds) seq.tokenIds seq.samplingParams
        seq.completionTokenIds.length
  outputs : ∀ output ∈ outputsOf log, ∃ prompt params,
    .accepted output.requestId prompt params ∈ log ∧
      output.tokenIds = model.decode eosTokenIds prompt params

namespace Transparent

variable {eosTokenIds : List Token} {log : List Event} {m : Machine V}

/-- A step without an output that accepts nothing and changes no request. -/
theorem quiet (T : Transparent model eosTokenIds log m) {m' : Machine V} {events : List Event}
    (houtputs : outputsOf events = [])
    (haccepted : ∀ id prompt params, .accepted id prompt params ∉ events)
    (hnext : m'.engine.1.nextRequestId = m.engine.1.nextRequestId)
    (hrequests : ∀ r ∈ m'.engine.1.requests, r ∈ m.engine.1.requests)
    (hsampled : ∀ executed plan, m'.executed = some executed → m'.engine.1.inFlight = some plan →
      executed.planId = plan.id → ∀ seq ∈ m'.engine.1.running, ∀ token,
        Samples executed.sequences seq token →
        token = model.next (model.contents seq.tokenIds) seq.tokenIds seq.samplingParams
          seq.completionTokenIds.length) : Transparent model eosTokenIds (log ++ events) m' := by
  have hmem : ∀ {id prompt params}, .accepted id prompt params ∈ log ++ events →
      .accepted id prompt params ∈ log := fun h =>
    (List.mem_append.mp h).resolve_right (haccepted _ _ _)
  refine ⟨fun id prompt params h => ?_, fun id prompt params prompt' params' h h' => ?_,
    fun r hr => ?_, hsampled, fun output houtput => ?_⟩
  · rw [hnext]
    exact T.accepted_lt id prompt params (hmem h)
  · exact T.accepted_unique id prompt params prompt' params' (hmem h) (hmem h')
  · obtain ⟨hin, htrack⟩ := T.requests r (hrequests r hr)
    exact ⟨List.mem_append_left _ hin, htrack⟩
  · rw [outputsOf_append, houtputs, List.append_nil] at houtput
    obtain ⟨prompt, params, hin, htokens⟩ := T.outputs output houtput
    exact ⟨prompt, params, List.mem_append_left _ hin, htokens⟩

/-- A new request is at the start of its decoding. -/
theorem accepted (T : Transparent model m.engine.1.eosTokenIds log m) (prompt : List Token)
    (params : SamplingParams) (hlimit : 1 ≤ params.maxTokens) :
    Transparent model m.engine.1.eosTokenIds
      (log ++ [.accepted m.engine.1.nextRequestId prompt params])
      { m with engine := ((m.engine.1.addRequest prompt params).2, m.engine.2) } := by
  have hid : ∀ {id prompt' params'}, .accepted id prompt' params' ∈
      log ++ [.accepted m.engine.1.nextRequestId prompt params] →
      .accepted id prompt' params' ∈ log ∨
        id = m.engine.1.nextRequestId ∧ prompt' = prompt ∧ params' = params := by
    intro id prompt' params' h
    rcases List.mem_append.mp h with h | h
    · exact .inl h
    · simp only [List.mem_singleton, Event.accepted.injEq] at h
      exact .inr h
  refine ⟨fun id prompt' params' h => ?_, fun id p₁ q₁ p₂ q₂ h₁ h₂ => ?_, fun r hr => ?_,
    T.sampled, fun output houtput => ?_⟩
  · show id < m.engine.1.nextRequestId + 1
    rcases hid h with hold | ⟨rfl, -, -⟩
    · exact (T.accepted_lt id prompt' params' hold).trans (Nat.lt_succ_self _)
    · exact Nat.lt_succ_self _
  · rcases hid h₁ with hold₁ | ⟨hid₁, hp₁, hq₁⟩ <;> rcases hid h₂ with hold₂ | ⟨hid₂, hp₂, hq₂⟩
    · exact T.accepted_unique id p₁ q₁ p₂ q₂ hold₁ hold₂
    · exact absurd (T.accepted_lt id p₁ q₁ hold₁) (hid₂ ▸ lt_irrefl _)
    · exact absurd (T.accepted_lt id p₂ q₂ hold₂) (hid₁ ▸ lt_irrefl _)
    · exact ⟨hp₁.trans hp₂.symm, hq₁.trans hq₂.symm⟩
  · rw [Scheduler.requests_addRequest] at hr
    rcases List.mem_append.mp hr with hr | hr
    · obtain ⟨hin, htrack⟩ := T.requests r hr
      exact ⟨List.mem_append_left _ hin, htrack⟩
    · obtain rfl := List.mem_singleton.mp hr
      have hprompt : prompt.take prompt.length = prompt := List.take_length
      have hcompletion : (Sequence.new m.engine.1.nextRequestId m.engine.1.nextSeqId prompt
          params).request.completion = [] := List.drop_length
      rw [hcompletion]
      refine ⟨List.mem_append_right _ (List.mem_singleton.mpr ?_), .nil hlimit⟩
      exact congrArg (Event.accepted m.engine.1.nextRequestId · params) hprompt
  · rw [outputsOf_append, show outputsOf [_] = [] from rfl, List.append_nil] at houtput
    obtain ⟨prompt', params', hin, htokens⟩ := T.outputs output houtput
    exact ⟨prompt', params', List.mem_append_left _ hin, htokens⟩

section Step

variable [HashFunction]

/-- Applying what was executed lets every sampled request go on, or answers it. -/
theorem applied (T : Transparent model m.engine.1.eosTokenIds log m)
    (I : Inv m.engine.1 m.engine.2) {result : StepResult} {outputs : List RequestOutput}
    {all : List Sequence} {s' : Scheduler} {kv' : BlockPool} (hexecuted : m.executed = some result)
    (haccepts : Accepts m.engine.1 result)
    (A : AppliesTo m.engine.1 m.engine.2 result all s' kv')
    (houtputs : outputs = (all.filter Sequence.isFinished).map Sequence.output) :
    Transparent model m.engine.1.eosTokenIds (log ++ [.applied result outputs])
      { m with engine := (s', kv') } := by
  obtain ⟨plan, hinFlight, hplan, -⟩ := haccepts
  have hnext := T.sampled result plan hexecuted hinFlight hplan
  have hmem : ∀ {id prompt params}, .accepted id prompt params ∈ log ++ [.applied result outputs] →
      .accepted id prompt params ∈ log := fun h => by simpa using h
  -- the next round of plain decoding of a sampled sequence
  have hround : ∀ seq ∈ m.engine.1.running, ∀ token, Samples result.sequences seq token →
      seq.request.AcceptedIn log ∧
      if seq.stopsAt m.engine.1.eosTokenIds token then
        seq.completionTokenIds ++ [token] = model.decode m.engine.1.eosTokenIds
          (seq.tokenIds.take seq.numPromptTokens) seq.samplingParams
      else OnTrack model m.engine.1.eosTokenIds (seq.tokenIds.take seq.numPromptTokens)
        seq.samplingParams (seq.completionTokenIds ++ [token]) := by
    intro seq hseq token hsamples
    obtain ⟨hin, htrack⟩ := T.requests seq.request
      (List.mem_map_of_mem (List.mem_append_left _ hseq))
    have hcompletion : seq.request.completion = seq.completionTokenIds := rfl
    have hsplit : seq.request.tokenIds.take seq.request.numPromptTokens ++
        seq.completionTokenIds = seq.tokenIds := List.take_append_drop _ _
    rw [hcompletion] at htrack
    refine ⟨hin, ?_⟩
    rw [Sequence.stopsAt_eq_stops (I.core.running seq hseq)]
    refine OnTrack.round htrack ?_
    rw [CausalModel.nextToken, hsplit]
    exact hnext seq hseq token hsamples
  refine ⟨fun id prompt params h => ?_, fun id prompt params prompt' params' h h' => ?_,
    fun r hr => ?_, ?_, fun output houtput => ?_⟩
  · rw [A.config]
    exact T.accepted_lt id prompt params (hmem h)
  · exact T.accepted_unique id prompt params prompt' params' (hmem h) (hmem h')
  · rcases A.requests I.core hr with ⟨seq, hseq, token, hsamples, hgoes, rfl⟩ | ⟨hr, -⟩
    · obtain ⟨hin, hnextRound⟩ := hround seq hseq token hsamples
      rw [hgoes] at hnextRound
      have hok := I.core.running seq hseq
      have hle : seq.numPromptTokens ≤ seq.tokenIds.length := hok.numTokens ▸ hok.prompt_le
      have hprompt : (seq.request.sample token).tokenIds.take seq.numPromptTokens =
          seq.tokenIds.take seq.numPromptTokens := List.take_append_of_le_length hle
      have hcompletion : (seq.request.sample token).completion =
          seq.completionTokenIds ++ [token] := List.drop_append_of_le_length hle
      refine ⟨List.mem_append_left _ ?_, ?_⟩
      · rw [show (seq.request.sample token).numPromptTokens = seq.numPromptTokens from rfl, hprompt]
        exact hin
      · rw [hcompletion, show (seq.request.sample token).numPromptTokens = seq.numPromptTokens
          from rfl, hprompt]
        exact hnextRound
    · obtain ⟨hin, htrack⟩ := T.requests r hr
      exact ⟨List.mem_append_left _ hin, htrack⟩
  · rw [A.config]
    simp
  · rw [outputsOf_append] at houtput
    rcases List.mem_append.mp houtput with houtput | houtput
    · obtain ⟨prompt, params, hin, htokens⟩ := T.outputs output houtput
      exact ⟨prompt, params, List.mem_append_left _ hin, htokens⟩
    · have houtput' : output ∈ (all.filter Sequence.isFinished).map Sequence.output := by
        rw [← houtputs]
        simpa [outputsOf] using houtput
      obtain ⟨seq, hseq, token, hsamples, hstops, rfl⟩ :=
        output_of_stepped A.stepped I.core.running houtput'
      obtain ⟨hin, hcomplete⟩ := hround seq hseq token hsamples
      rw [hstops] at hcomplete
      exact ⟨_, _, List.mem_append_left _ hin, hcomplete⟩

/-- **Every operation keeps the invariant**, when results are applied as they were executed. -/
theorem step (T : Transparent model m.engine.1.eosTokenIds log m) (S : m.Sound model)
    (I : Inv m.engine.1 m.engine.2) {o : Operation} {m' : Machine V}
    (h : MachineStep model m o m') (hunchanged : o.Unchanged)
    (hlimited : ∀ e ∈ o.events, e.Limited) :
    Transparent model m.engine.1.eosTokenIds (log ++ o.events) m' := by
  cases h with
  | @call e st' h hresult =>
    have heffect := h.effect I
    cases heffect with
    | accepted prompt params => exact T.accepted prompt params (hlimited _ List.mem_cons_self)
    | planned hinFlight hselected hsequences hne hid hslots hlengths =>
      refine T.quiet rfl (by simp [Operation.events]) (by rw [hselected.config])
        (fun r hr => hselected.requests.mem_iff.mp hr) fun executed plan hexecuted hplan hsame => ?_
      obtain rfl := Option.some.inj hplan
      have hlt := S.executedId executed hexecuted
      rw [hsame, hid, congrArg Scheduler.nextPlanId hselected.config] at hlt
      exact absurd hlt (lt_irrefl _)
    | idle hinFlight hselected | noProgress hinFlight hselected
    | unrepresentable hinFlight hselected =>
      have hnone := (congrArg Scheduler.inFlight hselected.config).trans hinFlight
      exact T.quiet rfl (by simp [Operation.events]) (by rw [hselected.config])
        (fun r hr => hselected.requests.mem_iff.mp hr) (by simp [hnone])
    | busy => exact T.quiet rfl (by simp [Operation.events]) rfl (fun _ hr => hr) T.sampled
    | applied | rejected => simp [Event.result] at hresult
    | aborted I' hsame =>
      exact T.quiet rfl (by simp [Operation.events]) rfl (by simp [Scheduler.requests]) (by simp)
  | @execute plan result memory hinFlight hexecute =>
    obtain ⟨-, rfl⟩ := S.execute I hinFlight hexecute
    refine T.quiet rfl (by simp [Operation.events]) rfl (fun _ hr => hr) ?_
    intro executed plan' hexecuted hplan _ seq hseq token hsamples
    obtain rfl := Option.some.inj hexecuted
    exact of_samples_resultFor I hseq hsamples
  | fail => exact T.quiet rfl (by simp [Operation.events]) rfl (fun _ hr => hr) (by simp)
  | @apply e st' executed result h hexecuted hresult hid =>
    have heffect := h.effect I
    have heq : e.result = some executed := hunchanged
    cases heffect with
    | applied haccepts A =>
      obtain rfl := Option.some.inj heq
      exact T.applied I hexecuted haccepts A rfl
    | rejected => exact T.quiet rfl (by simp [Operation.events]) rfl (fun _ hr => hr) T.sampled
    | accepted | planned | idle | noProgress | unrepresentable | busy | aborted =>
      simp [Event.result] at hresult

end Step

end Transparent

variable [HashFunction]

/-- Every run that applies what it executes is transparent. -/
theorem transparent_of_run {config : EngineConfig} {memory : Memory V} {log : List Operation}
    {m : Machine V} (h : Run (MachineStep model) (.initial config memory) log m)
    (hlog : ∀ o ∈ log, o.Unchanged ∧ ∀ e ∈ o.events, e.Limited) :
    Transparent model config.eosTokenIds (engineLog log) m := by
  refine h.invariant_of_forall (P := fun log m =>
    Transparent model config.eosTokenIds (engineLog log) m) hlog ?_ ?_
  · exact ⟨by simp, by simp, by simp [Machine.initial, EngineConfig.initial,
      Scheduler.newWithEosTokenIds, Scheduler.requests], by simp [Machine.initial],
      by simp [outputsOf]⟩
  · intro log m o m' hrun _ T hQ hstep
    have hengine := run_of_machine hrun
    have heos := (EngineConfig.governs_of_run hengine).eosTokenIds
    rw [engineLog_append, show engineLog [o] = o.events from List.flatMap_singleton _ _]
    rw [← heos] at T ⊢
    exact T.step (sound_of_run hrun) (EngineConfig.inv_of_run hengine) hstep hQ.1 hQ.2

/-- **Scheduling transparency.** In every run, with requests added at any time between the calls of
`planStep`, the executions and the calls of `applyStepResult`, every output answers an accepted
request, and its tokens are what the network generates for the prompt of that request alone by plain
decoding. The execution of a plan in flight is never refused. The pool, the budgets, the EOS tokens,
the hash function, the network and what the cache holds at the start are arbitrary. -/
theorem EngineConfig.scheduling_transparent (config : EngineConfig) (model : CausalModel V)
    (memory : Memory V) {log : List Operation} {m : Machine V}
    (h : Run (MachineStep model) (.initial config memory) log m)
    (hlog : ∀ o ∈ log, o.Unchanged ∧ ∀ e ∈ o.events, e.Limited) :
    (∀ plan, m.engine.1.inFlight = some plan →
      ∃ executed, model.executePlan plan m.memory = .ok executed) ∧
    ∀ output ∈ outputsOf (engineLog log),
      (∃ prompt params, .accepted output.requestId prompt params ∈ engineLog log) ∧
        ∀ prompt params, .accepted output.requestId prompt params ∈ engineLog log →
          output.tokenIds = model.decode config.eosTokenIds prompt params := by
  have T := transparent_of_run h hlog
  refine ⟨fun plan hinFlight => ?_, fun output houtput => ?_⟩
  · have I := EngineConfig.inv_of_run (run_of_machine h)
    obtain ⟨memory, hexecute, -⟩ := (sound_of_run h).executePlan I hinFlight
    exact ⟨_, hexecute⟩
  obtain ⟨prompt, params, hin, htokens⟩ := T.outputs output houtput
  refine ⟨⟨prompt, params, hin⟩, fun prompt' params' hin' => ?_⟩
  obtain ⟨rfl, rfl⟩ := T.accepted_unique _ _ _ _ _ hin hin'
  exact htokens

/-- `CausalFingerprintModel`: a slot holds its token, and the next token is the fingerprint of all
tokens that can be read. -/
def CausalModel.fingerprint : CausalModel Token where
  content token _ _ := token
  next contents _ _ _ := contents.foldl (fun fingerprint token =>
    (fingerprint * 31 + (token + 1) % 4294967296) % 4294967296 % 97) 0

omit [HashFunction] in
/-- With three tokens to a step the second prompt is prefilled next to the decoding of the first
one. Both outputs are what the prompts generate alone. -/
theorem scheduling_transparent_twoRequests :
    letI := constantHash
    let core := ((EngineCore.initial (EngineConfig.plain 2 3 2) fun _ => (0 : Token)).addRequest
      [1, 2, 3] (.limited 2)).addRequest [4, 5] (.limited 1)
    let next := (core.stepInternal .fingerprint .succeeds).2
    (next.stepInternal .fingerprint .succeeds).1 = .ok [⟨0, [79, 7], "", true⟩, ⟨1, [64], "", true⟩] ∧
      [79, 7] = CausalModel.fingerprint.decode [] [1, 2, 3] (.limited 2) ∧
      [64] = CausalModel.fingerprint.decode [] [4, 5] (.limited 1) := by
  intro core next
  let _ := constantHash
  have h₀ : Run (MachineStep .fingerprint) (.initial (EngineConfig.plain 2 3 2) fun _ => (0 : Token))
      ([.call (.accepted 0 [1, 2, 3] (.limited 2))] ++ [.call (.accepted 1 [4, 5] (.limited 1))])
      core.machine :=
    .append (.single (.call (.addRequest _ _ _ _) rfl)) (.single (.call (.addRequest _ _ _ _) rfl))
  obtain ⟨-, log₁, h₁, hlog₁, -⟩ := stepInternal_effect h₀ rfl .succeeds
  obtain ⟨-, log₂, h₂, hlog₂, houtputs⟩ := stepInternal_effect h₁
    (Option.isNone_iff_eq_none.mp (by decide +kernel)) .succeeds
  have hrun : (next.stepInternal .fingerprint .succeeds).1 =
      .ok [⟨0, [79, 7], "", true⟩, ⟨1, [64], "", true⟩] := by decide +kernel
  obtain ⟨-, htransparent⟩ := EngineConfig.scheduling_transparent _ CausalModel.fingerprint _ h₂ (by
    intro o ho
    rcases List.mem_append.mp ho with ho | ho
    · rcases List.mem_append.mp ho with ho | ho
      · simp only [List.mem_append, List.mem_singleton] at ho
        rcases ho with rfl | rfl <;>
          exact ⟨trivial, by
            simp [Operation.events, Event.Limited, Event.AcceptsIf, SamplingParams.limited]⟩
      · exact ⟨hlog₁.unchanged o ho, fun e he => hlog₁.acceptsIf ho he _⟩
    · exact ⟨hlog₂.unchanged o ho, fun e he => hlog₂.acceptsIf ho he _⟩)
  simp only [engineLog_append, outputsOf_append, houtputs _ hrun] at htransparent
  refine ⟨hrun, ?_, ?_⟩
  · exact (htransparent ⟨0, [79, 7], "", true⟩ (by simp)).2 [1, 2, 3] (.limited 2)
      (by simp [engineLog, Operation.events])
  · exact (htransparent ⟨1, [64], "", true⟩ (by simp)).2 [4, 5] (.limited 1)
      (by simp [engineLog, Operation.events])

end VllmOxide
