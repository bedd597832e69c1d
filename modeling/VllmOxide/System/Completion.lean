import VllmOxide.Llm.Outputs
import VllmOxide.System.Track

/-!
# Completions

Without an abort, every accepted request is either live or has been answered by one output. An
output brings the tokens that were sampled for its request, and they end where the parameters and
the EOS ids say.

## Main definitions

* `outputsOf`, `acceptedIds`: the outputs and the accepted requests of a log.
* `Unfinished`, `Complete`: the completions of live and of finished requests.
* `Answered`: the outputs of a log answer the requests that are no longer live.

## Main results

* `EngineConfig.answered_of_run`: every run without an abort answers its requests.
* `EngineConfig.completions`: a drained run has answered every request, and the outputs can be put
  into input order.
-/

namespace VllmOxide

/-- The outputs of a log, in the order in which the requests finish. -/
def outputsOf (log : List Event) : List RequestOutput :=
  log.flatMap fun e => match e with
    | .applied _ outputs => outputs
    | _ => []

/-- The accepted requests of a log, in input order. -/
def acceptedIds (log : List Event) : List ℕ :=
  log.flatMap fun e => match e with
    | .accepted requestId _ _ => [requestId]
    | _ => []

/-- A completion that goes on. -/
structure Unfinished (eosTokenIds : List Token) (params : SamplingParams)
    (tokens : List Token) : Prop where
  lt : tokens.length < params.maxTokens
  goesOn : params.ignoreEos = false → ∀ token ∈ tokens, token ∉ eosTokenIds

/-- A completion that has come to its end. -/
structure Complete (eosTokenIds : List Token) (params : SamplingParams)
    (tokens : List Token) : Prop where
  pos : 1 ≤ tokens.length
  le : tokens.length ≤ params.maxTokens
  ends : tokens.length = params.maxTokens ∨ params.ignoreEos = false ∧
    ∃ token ∈ eosTokenIds, tokens.getLast? = some token
  goesOn : params.ignoreEos = false → ∀ token ∈ tokens.dropLast, token ∉ eosTokenIds

section Sampling

variable {eosTokenIds : List Token} {seq : Sequence}

/-- The tokens after the prompt when one more token is appended. -/
theorem completionTokenIds_applied (eosTokenIds : List Token) (hok : seq.RunningOk)
    (token : Option Token) :
    (seq.applied eosTokenIds token).completionTokenIds =
      seq.completionTokenIds ++ token.toList := by
  have hle := hok.prompt_le
  rw [hok.numTokens] at hle
  exact List.drop_append_of_le_length hle

theorem length_completionTokenIds (hok : seq.RunningOk) :
    seq.completionTokenIds.length = seq.numTokens - seq.numPromptTokens := by
  rw [Sequence.completionTokenIds, List.length_drop, hok.numTokens]

/-- A sampled token ends an unfinished completion, or it goes on. -/
theorem Unfinished.sample (hok : seq.RunningOk)
    (h : Unfinished eosTokenIds seq.samplingParams seq.completionTokenIds) (tokenId : Token) :
    if seq.stopsAt eosTokenIds tokenId then
      Complete eosTokenIds seq.samplingParams (seq.completionTokenIds ++ [tokenId])
    else Unfinished eosTokenIds seq.samplingParams (seq.completionTokenIds ++ [tokenId]) := by
  have hlength := length_completionTokenIds hok
  have hle := hok.prompt_le
  have hlt := h.lt
  have hcount : (seq.appendToken tokenId).numCompletionTokens =
      seq.completionTokenIds.length + 1 := by
    show seq.numTokens + 1 - seq.numPromptTokens = _
    omega
  have hstops : seq.stopsAt eosTokenIds tokenId =
      (decide (seq.samplingParams.maxTokens ≤ seq.completionTokenIds.length + 1) ||
        (decide (tokenId ∈ eosTokenIds) && !seq.samplingParams.ignoreEos)) := by
    rw [← hcount]
    rfl
  split
  · rename_i hstop
    refine ⟨by simp, by simpa using Nat.succ_le_of_lt hlt, ?_, by simpa using h.goesOn⟩
    rw [hstops, Bool.or_eq_true, Bool.and_eq_true, decide_eq_true_eq, decide_eq_true_eq] at hstop
    rcases hstop with hlimit | ⟨heos, hignore⟩
    · refine .inl ?_
      rw [List.length_append, List.length_singleton]
      omega
    · exact .inr ⟨by simpa using hignore, tokenId, heos, by simp⟩
  · rename_i hgoes
    rw [hstops] at hgoes
    simp only [Bool.or_eq_true, Bool.and_eq_true, decide_eq_true_eq, not_or, not_le, not_and,
      Bool.not_eq_true'] at hgoes
    refine ⟨by simpa using hgoes.1, fun hignore token htoken => ?_⟩
    rcases List.mem_append.mp htoken with htoken | htoken
    · exact h.goesOn hignore token htoken
    · obtain rfl := List.mem_singleton.mp htoken
      exact fun heos => hgoes.2 heos hignore

end Sampling

/-- The tokens after the prompt. -/
def Request.completion (r : Request) : List Token :=
  r.tokenIds.drop r.numPromptTokens

/-- An accepted request may sample at least one token. -/
def Event.Limited (e : Event) : Prop :=
  e.AcceptsIf fun _ params => 1 ≤ params.maxTokens

/-- The outputs of a log answer the requests that are no longer live: one output for each of them,
with the tokens sampled for it. -/
structure Answered (eosTokenIds : List Token) (log : List Event) (s : Scheduler) : Prop where
  accepted : acceptedIds log = List.range s.nextRequestId
  ids : ((outputsOf log).map (·.requestId) ++ s.requests.map (·.seqId)).Perm (acceptedIds log)
  outputs : ∀ output ∈ outputsOf log, ∃ t, track output.requestId log = some t ∧
    output.tokenIds = t.sampled ∧ Complete eosTokenIds t.params output.tokenIds

namespace Answered

variable {eosTokenIds : List Token} {log : List Event} {s : Scheduler}

/-- The answered and the live requests are different requests. -/
theorem nodup (h : Answered eosTokenIds log s) :
    ((outputsOf log).map (·.requestId) ++ s.requests.map (·.seqId)).Nodup := by
  rw [h.ids.nodup_iff, h.accepted]
  exact List.nodup_range

theorem lt_next (h : Answered eosTokenIds log s) {output : RequestOutput}
    (houtput : output ∈ outputsOf log) : output.requestId < s.nextRequestId := by
  have hmem := h.ids.mem_iff.mp (List.mem_append_left _ (List.mem_map_of_mem houtput))
  rw [h.accepted] at hmem
  exact List.mem_range.mp hmem

theorem gone (h : Answered eosTokenIds log s) {output : RequestOutput}
    (houtput : output ∈ outputsOf log) : output.requestId ∉ s.requests.map (·.seqId) :=
  fun hlive => (List.nodup_append.mp h.nodup).2.2 _ (List.mem_map_of_mem houtput) _ hlive rfl

end Answered

variable [HashFunction]

/-- The live requests of a run whose requests may sample at least one token are unfinished. -/
theorem EngineConfig.unfinished_of_run {config : EngineConfig} {log : List Event}
    {st : EngineState} (h : Run Step config.initial log st) (hlimited : ∀ e ∈ log, e.Limited) :
    ∀ r ∈ st.1.requests, Unfinished config.eosTokenIds r.samplingParams r.completion := by
  refine EngineConfig.forall_requests h hlimited (fun _ _ prompt params hlimit => ?_) ?_
  · have hnil : prompt.drop prompt.length = [] := List.drop_length
    exact ⟨by rw [show Request.completion _ = prompt.drop prompt.length from rfl, hnil]; exact hlimit,
      fun _ token htoken => by
        rw [show Request.completion _ = prompt.drop prompt.length from rfl, hnil] at htoken
        cases htoken⟩
  · rintro results seq seq' hok - hunfinished (⟨-, rfl⟩ | ⟨-, executed, -, -, rfl⟩) hfin
    · exact hunfinished
    · have hcompletion : (seq.applied config.eosTokenIds executed.sampledToken).request.completion =
          seq.completionTokenIds ++ executed.sampledToken.toList :=
            completionTokenIds_applied config.eosTokenIds hok _
      rw [hcompletion]
      cases htoken : executed.sampledToken with
      | none =>
        rw [Option.toList_none, List.append_nil]
        exact hunfinished
      | some tokenId =>
        have hsample := Unfinished.sample hok hunfinished tokenId
        rw [if_neg] at hsample
        · exact hsample
        · intro hstop
          simp [Sequence.isFinished, Sequence.applied, htoken, hstop] at hfin

/-- Nothing changes what was sampled for a request that is no longer live. -/
theorem Effect.track_of_gone {st st' : EngineState} {e : Event} (h : Effect st e st')
    (hnot : e ≠ .aborted) {id : ℕ} (hlt : id < st.1.nextRequestId)
    (hgone : id ∉ st.1.requests.map (·.seqId)) (t : Track) :
    ∃ t', e.track id (some t) = some t' ∧ t'.sampled = t.sampled ∧ t'.params = t.params := by
  have hdecision : ∀ d : Decision,
      (d.track id t).sampled = t.sampled ∧ (d.track id t).params = t.params := fun d => by
    unfold Decision.track
    split <;> split <;> exact ⟨rfl, rfl⟩
  cases h with
  | accepted prompt params =>
    refine ⟨t, ?_, rfl, rfl⟩
    rw [Event.track, if_neg (by omega)]
  | planned | idle => exact ⟨_, rfl, hdecision _⟩
  | noProgress | unrepresentable | busy => exact ⟨_, rfl, hdecision _⟩
  | applied haccepts A =>
    obtain ⟨plan, -, -, hmatches⟩ := haccepts
    have hnone := tokenOf_eq_none hmatches fun seq hseq _ (hid : seq.seqId = id) => hgone (by
      rw [Scheduler.requests, List.map_map]
      exact List.mem_map.mpr ⟨seq, List.mem_append_left _ hseq, hid⟩)
    refine ⟨t, ?_, rfl, rfl⟩
    rw [Event.track, hnone]
    simp
  | rejected => exact ⟨t, rfl, rfl, rfl⟩
  | aborted => exact absurd rfl hnot

/-! ### Every run answers its requests -/

omit [HashFunction] in
@[simp] theorem outputsOf_append (log log' : List Event) :
    outputsOf (log ++ log') = outputsOf log ++ outputsOf log' := List.flatMap_append

omit [HashFunction] in
@[simp] theorem acceptedIds_append (log log' : List Event) :
    acceptedIds (log ++ log') = acceptedIds log ++ acceptedIds log' := List.flatMap_append

omit [HashFunction] in
/-- The completion of a request is what has been sampled for it. -/
theorem Track.Of.completion {t : Track} {r : Request} (h : t.Of r) : r.completion = t.sampled := by
  rw [Request.completion, h.tokenIds, h.prompt, Track.history, List.drop_left]

omit [HashFunction] in
/-- The completion of a sequence that finishes has come to its end. -/
theorem Stepped.complete {eosTokenIds : List Token} {results : List SequenceStepResult}
    {seq seq' : Sequence} (h : Stepped eosTokenIds results seq seq') (hok : seq.RunningOk)
    (hunfinished : Unfinished eosTokenIds seq.samplingParams seq.completionTokenIds)
    (hfin : seq'.isFinished = true) :
    ∃ executed ∈ results, Matches seq executed ∧
      seq'.completionTokenIds = seq.completionTokenIds ++ executed.sampledToken.toList ∧
      Complete eosTokenIds seq.samplingParams seq'.completionTokenIds := by
  rcases h with ⟨-, rfl⟩ | ⟨-, executed, hexecuted, hmatch, rfl⟩
  · simp [Sequence.isFinished, hok.status] at hfin
  · have hcompletion := completionTokenIds_applied eosTokenIds hok executed.sampledToken
    refine ⟨executed, hexecuted, hmatch, hcompletion, ?_⟩
    rw [hcompletion]
    cases htoken : executed.sampledToken with
    | none => simp [Sequence.isFinished, Sequence.applied, htoken, hok.status] at hfin
    | some tokenId =>
      have hsample := hunfinished.sample hok tokenId
      rw [if_pos] at hsample
      · exact hsample
      · by_contra hgoes
        simp [Sequence.isFinished, Sequence.applied, htoken, hgoes, hok.status] at hfin

namespace Answered

variable {eosTokenIds : List Token} {log : List Event} {st st' : EngineState} {e : Event}

/-- What the outputs say stays true. -/
theorem kept (A : Answered eosTokenIds log st.1) (h : Effect st e st') (hnot : e ≠ .aborted) :
    ∀ output ∈ outputsOf log, ∃ t, track output.requestId (log ++ [e]) = some t ∧
      output.tokenIds = t.sampled ∧ Complete eosTokenIds t.params output.tokenIds := by
  intro output houtput
  obtain ⟨t, ht, htokens, hcomplete⟩ := A.outputs output houtput
  obtain ⟨t', ht', hsampled, hparams⟩ :=
    h.track_of_gone hnot (A.lt_next houtput) (A.gone houtput) t
  exact ⟨t', by rw [track_snoc, ht, ht'], hsampled ▸ htokens, hparams ▸ hcomplete⟩

/-- A step without an output that neither accepts a request nor drops one. -/
theorem quiet (A : Answered eosTokenIds log st.1) (h : Effect st e st') (hnot : e ≠ .aborted)
    (houtputs : outputsOf [e] = []) (haccepted : acceptedIds [e] = [])
    (hnext : st'.1.nextRequestId = st.1.nextRequestId)
    (hrequests : st'.1.requests.Perm st.1.requests) :
    Answered eosTokenIds (log ++ [e]) st'.1 where
  accepted := by rw [acceptedIds_append, haccepted, List.append_nil, hnext, A.accepted]
  ids := by
    rw [acceptedIds_append, haccepted, outputsOf_append, houtputs, List.append_nil,
      List.append_nil]
    exact ((hrequests.map _).append_left _).trans A.ids
  outputs := by
    rw [outputsOf_append, houtputs, List.append_nil]
    exact A.kept h hnot

/-- An accepted result answers the requests that finish. -/
theorem applied {result : StepResult} {all : List Sequence} {s' : Scheduler} {kv' : BlockPool}
    (A : Answered st.1.eosTokenIds log st.1) (I : Inv st.1 st.2) (T : Tracked log st)
    (hunfinished : ∀ r ∈ st.1.requests,
      Unfinished st.1.eosTokenIds r.samplingParams r.completion)
    (haccepts : Accepts st.1 result) (hto : AppliesTo st.1 st.2 result all s' kv') :
    Answered st.1.eosTokenIds
      (log ++ [.applied result ((all.filter Sequence.isFinished).map Sequence.output)]) s' := by
  have heffect := Effect.applied haccepts hto
  obtain ⟨plan, hinFlight, -, hmatches⟩ := haccepts
  have hrequestId : ∀ seq' ∈ all, seq'.requestId = seq'.seqId := fun seq' hseq' => by
    obtain ⟨seq, hseq, hstepped⟩ := exists_of_forall₂ hto.stepped hseq'
    rw [hstepped.requestId, hstepped.seqId]
    exact I.core.identified.requestId _ (List.mem_map_of_mem (List.mem_append_left _ hseq))
  refine ⟨?_, ?_, ?_⟩
  · rw [hto.config]
    simpa [acceptedIds] using A.accepted
  · have hids : all.map (·.seqId) = st.1.running.map (·.seqId) :=
      map_eq_of_forall₂ hto.stepped fun _ _ h => h.seqId
    have houtputs : ((all.filter Sequence.isFinished).map Sequence.output).map (·.requestId) =
        (all.filter Sequence.isFinished).map (·.seqId) := by
      rw [List.map_map]
      exact List.map_congr_left fun seq hseq => hrequestId seq (List.mem_of_mem_filter hseq)
    have hsplit : ((all.filter Sequence.isFinished).map (·.seqId) ++
        (all.filter fun seq => !seq.isFinished).map (·.seqId)).Perm
        (st.1.running.map (·.seqId)) := by
      rw [← hids, ← List.map_append]
      exact (List.filter_append_perm _ _).map _
    have hbefore := A.ids
    rw [Scheduler.requests, List.map_map, List.map_append] at hbefore
    rw [hto.config, acceptedIds_append, outputsOf_append, List.map_append, Scheduler.requests,
      List.map_map, List.map_append, List.append_assoc]
    have hthis : (outputsOf [Event.applied result
        ((all.filter Sequence.isFinished).map Sequence.output)]).map (·.requestId) =
        (all.filter Sequence.isFinished).map (·.seqId) := by
      rw [← houtputs]
      simp [outputsOf]
    rw [hthis, ← List.append_assoc (List.map _ (List.filter _ _))]
    refine (((hsplit.append_right _).append_left _).trans hbefore).trans ?_
    rw [show acceptedIds [Event.applied result _] = [] from rfl, List.append_nil]
  · intro output houtput
    rw [outputsOf_append] at houtput
    rcases List.mem_append.mp houtput with houtput | houtput
    · exact A.kept heffect (by simp) output houtput
    · obtain ⟨seq', hseq', rfl⟩ := List.mem_map.mp
        (show output ∈ (all.filter Sequence.isFinished).map Sequence.output by
          simpa [outputsOf] using houtput)
      obtain ⟨hseq', hfin⟩ := List.mem_filter.mp hseq'
      obtain ⟨seq, hseq, hstepped⟩ := exists_of_forall₂ hto.stepped hseq'
      have hok := I.core.running seq hseq
      obtain ⟨t, ht, hruns⟩ := T.running seq hseq
      obtain ⟨executed, hexecuted, hmatch, htokens, hcomplete⟩ := hstepped.complete hok
        (hunfinished seq.request (List.mem_map_of_mem (List.mem_append_left _ hseq))) hfin
      have htoken := tokenOf_of_matches hmatches (List.nodup_append.mp I.core.nodup_ids).1
        hexecuted hmatch
      have hsampled : seq.completionTokenIds = t.sampled := hruns.of.completion
      have hparams : seq.samplingParams = t.params := hruns.of.params
      refine ⟨t.samples (result.tokenOf seq.seqId), ?_, ?_, ?_⟩
      · rw [show seq'.output.requestId = seq'.requestId from rfl, hrequestId seq' hseq',
          hstepped.seqId, track_snoc, ht]
        rfl
      · rw [htoken]
        exact htokens.trans (hsampled ▸ rfl)
      · exact hparams ▸ hcomplete

end Answered

/-- **Every run without an abort answers its requests**, when they may sample at least one
token. -/
theorem EngineConfig.answered_of_run {config : EngineConfig} {log : List Event} {st : EngineState}
    (h : Run Step config.initial log st) (hlog : ∀ e ∈ log, e ≠ .aborted ∧ e.Limited) :
    Answered config.eosTokenIds log st.1 := by
  refine EngineConfig.invariant_of_forall h hlog
    (P := fun log st => Answered config.eosTokenIds log st.1) ⟨rfl, .refl _, by simp [outputsOf]⟩ ?_
  intro log st e st' hrun hbefore A hQ heffect
  have I := EngineConfig.inv_of_run hrun
  have hquiet := fun hsame => A.quiet heffect hQ.1 hsame
  cases heffect with
  | accepted prompt params =>
    refine ⟨?_, ?_, ?_⟩
    · rw [acceptedIds_append, A.accepted]
      exact List.range_succ.symm
    · rw [acceptedIds_append, outputsOf_append, Scheduler.requests_addRequest,
        show outputsOf [_] = [] from rfl, List.append_nil, List.map_append, ← List.append_assoc]
      have hnew : acceptedIds [.accepted st.1.nextRequestId prompt params] =
          [(Sequence.new st.1.nextRequestId st.1.nextSeqId prompt params).request].map
            (·.seqId) := congrArg ([·]) I.core.nextRequestId
      rw [hnew]
      exact A.ids.append_right _
    · rw [outputsOf_append, show outputsOf [_] = [] from rfl, List.append_nil]
      exact A.kept (.accepted prompt params) hQ.1
  | planned _ S | idle _ S | noProgress _ S | unrepresentable _ S =>
    exact hquiet rfl rfl (by rw [S.config]) S.requests
  | busy | rejected => exact hquiet rfl rfl rfl (.refl _)
  | applied haccepts hto =>
    have hgoverns := EngineConfig.governs_of_run hrun
    have hunfinished := EngineConfig.unfinished_of_run hrun fun e he => (hbefore e he).2
    rw [← hgoverns.eosTokenIds] at A hunfinished ⊢
    exact A.applied I (EngineConfig.tracked_of_run hrun) hunfinished haccepts hto
  | aborted => exact absurd rfl hQ.1

/-- **Exactly-once, truthful completion.** A run that is drained has emitted one output for each
accepted request and none for other ids, with the tokens sampled for the request; they end where
they have to. The outputs of a later part of the run, between two points at which the engine is
drained, are put into the order in which its requests were accepted. -/
theorem EngineConfig.completions (config : EngineConfig) {log : List Event} {st : EngineState}
    (h : Run Step config.initial log st) (hlog : ∀ e ∈ log, e ≠ .aborted ∧ e.Limited)
    (hdrained : st.1.isRunning = false) :
    acceptedIds log = List.range st.1.nextRequestId ∧
    ((outputsOf log).map (·.requestId)).Perm (acceptedIds log) ∧
    (∀ output ∈ outputsOf log, ∃ t, track output.requestId log = some t ∧
      output.tokenIds = t.sampled ∧ Complete config.eosTokenIds t.params output.tokenIds) ∧
    ∀ before after st', log = before ++ after → Run Step config.initial before st' →
      st'.1.isRunning = false →
      ∃ ordered, orderRequestOutputs (acceptedIds after) (outputsOf after) = .ok ordered ∧
        ordered.map (·.requestId) = acceptedIds after ∧ ordered.Perm (outputsOf after) := by
  -- a drained state has no live requests
  have hanswers : ∀ {log : List Event} {st : EngineState}, Run Step config.initial log st →
      (∀ e ∈ log, e ≠ .aborted ∧ e.Limited) → st.1.isRunning = false →
      ((outputsOf log).map (·.requestId)).Perm (acceptedIds log) := by
    intro log st hrun hlog hdrained
    have hids := (EngineConfig.answered_of_run hrun hlog).ids
    have hnone : st.1.requests = [] := by
      simp only [Scheduler.isRunning, Bool.or_eq_false_iff, Bool.not_eq_false',
        List.isEmpty_iff] at hdrained
      simp [Scheduler.requests, hdrained]
    rwa [hnone, List.map_nil, List.append_nil] at hids
  have A := EngineConfig.answered_of_run h hlog
  have hall := hanswers h hlog hdrained
  refine ⟨A.accepted, hall, A.outputs, ?_⟩
  rintro before after st' rfl hbefore hdrained'
  have hearlier := hanswers hbefore (fun e he => hlog e (List.mem_append_left _ he)) hdrained'
  have hnodup : (acceptedIds (before ++ after)).Nodup := A.accepted ▸ List.nodup_range
  rw [acceptedIds_append] at hnodup hall
  rw [outputsOf_append, List.map_append] at hall
  refine orderRequestOutputs_ok (List.nodup_append.mp hnodup).2.1 ?_
  exact (List.perm_append_left_iff _).mp ((hearlier.append_right _).symm.trans hall)

omit [HashFunction] in
/-- Two requests, served together until they are drained. -/
theorem completions_twoRequests :
    letI := constantHash
    ∃ log : List Event, log.length = 8 ∧
      (outputsOf log).map (·.tokenIds) = [[8], [7, 9]] ∧
      ∃ ordered, orderRequestOutputs (acceptedIds log) (outputsOf log) = .ok ordered ∧
        ordered.map (·.requestId) = [0, 1] := by
  let _ := constantHash
  let actions := twoRequests ++ [.planStep,
    .applyStepResult ⟨0, [⟨0, 0, some 7⟩, ⟨1, 1, some 8⟩]⟩, .planStep,
    .applyStepResult ⟨1, [⟨0, 0, some 9⟩]⟩, .planStep, .applyStepResult ⟨2, []⟩]
  let config := EngineConfig.plain 2 16 2
  have hrun := run_performAll actions config.initial
  have hlimited : ∀ e ∈ (performAll config.initial actions).1, e.Limited :=
    acceptsIf_performAll (fun prompt params hmem => by
      simp only [actions, List.mem_append] at hmem
      rcases hmem with hmem | hmem
      · exact (of_mem_twoRequests hmem).2.2
      · simp at hmem) _
  have hkept : ((performAll config.initial actions).1.all fun e => match e with
      | .aborted => false
      | _ => true) = true := by decide +kernel
  have hnot : ∀ e ∈ (performAll config.initial actions).1, e ≠ .aborted := by
    rintro e he rfl
    exact absurd (List.all_eq_true.mp hkept _ he) (by simp)
  have h := EngineConfig.completions config hrun (fun e he => ⟨hnot e he, hlimited e he⟩)
    (by decide +kernel)
  obtain ⟨ordered, horder, hids, -⟩ := h.2.2.2 [] _ config.initial rfl .nil rfl
  have haccepted : acceptedIds (performAll config.initial actions).1 = [0, 1] := by decide +kernel
  exact ⟨_, by decide +kernel, by decide +kernel, ordered, horder, hids.trans haccepted⟩

end VllmOxide
