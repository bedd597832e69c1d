import VllmOxide.GoldenCapture.Replay
import VllmOxide.System.Decoding

/-!
# Runs along a frozen history

A forced call adds one request for every member of the plan, binds the session to them and runs the
engine until no request is live. The session keeps its own row and token counters in parallel with
the scheduler, whose sequences are preempted, rolled back and recovered. The two never drift: the
history of every live request is the prompt and the frozen tokens that the session has advanced it
by.

## Main definitions

* `addRequests`: `EngineCore::add_requests`.
* `ReplayRound`, `ReplayStep`: one step of the engine with the replay hook.
* `FollowsMember`: a live request is where the session thinks it is.
* `Replaying`: the session, the engine and what has been executed agree.

## Main results

* `Replaying.step_ok`: no check of a step fails.
* `Replaying.step`: a step keeps the agreement.
-/

namespace VllmOxide

open FloatOrder

/-- Add requests one after the other. -/
def addAll : EngineState → List (List Token × SamplingParams) → List ℕ × EngineState
  | st, [] => ([], st)
  | st, (prompt, params) :: rest =>
    let (id, s) := st.1.addRequest prompt params
    let (ids, st) := addAll (s, st.2) rest
    (id :: ids, st)

/-- `EngineCore::add_requests`: admit one complete call. -/
def addRequests (st : EngineState) (requests : List (List Token × SamplingParams)) :
    Except String (List ℕ × EngineState) := do
  bailIf (st.1.isRunning = true) "cannot admit a generation call while requests are running"
  bailIf (requests = []) "cannot admit an empty generation call"
  return addAll st requests

/-- One executed step: its plan, what the model and the sampler returned, and the outputs. -/
structure ReplayRound where
  plan : StepPlan
  execution : Execution
  outputs : List RequestOutput

/-- The entries that are sampled in some executed steps, in order. -/
def sampledEntries (rounds : List ReplayRound) : List SequenceStepPlan :=
  (rounds.flatMap (·.plan.sequences)).filter (·.samplingAllowed)

/-- The outputs of some executed steps, in order. -/
def roundOutputs (rounds : List ReplayRound) : List RequestOutput :=
  rounds.flatMap (·.outputs)

/-- A live request is where the session thinks it is: its history is the prompt of its member and
the frozen tokens it has been advanced by. -/
structure FollowsMember (session : ReplaySession) (r : Request) (member : ReplayMember) (step : ℕ) :
    Prop where
  memberOf : session.memberOf r.requestId = some member
  rowsOf : session.rowsOf r.requestId = some step
  advancesOf : session.advancesOf r.requestId = some (member.continuation.take step)
  tokenIds : r.tokenIds = member.prompt ++ member.continuation.take step
  prompt : r.numPromptTokens = member.prompt.length
  maxTokens : r.samplingParams.maxTokens = member.continuation.length
  ignoreEos : r.samplingParams.ignoreEos = true
  lt : step < member.continuation.length

/-- An output is the frozen continuation of its member, and all its rows have been recorded. -/
structure AnswersMember (session : ReplaySession) (output : RequestOutput) (member : ReplayMember) :
    Prop where
  memberOf : session.memberOf output.requestId = some member
  rowsOf : session.rowsOf output.requestId = some member.continuation.length
  advancesOf : session.advancesOf output.requestId = some member.continuation
  tokenIds : output.tokenIds = member.continuation
  finished : output.finished = true

/-- The sampled entries of a request, in order, are those of the completion steps up to the number
of rows recorded for it, each with the frozen history of its step. -/
structure RecordsMember (entries : List SequenceStepPlan) (requestId : ℕ) (member : ReplayMember)
    (steps : ℕ) : Prop where
  steps : (entries.filter fun entry => decide (entry.requestId = requestId)).map
    (·.completionStep) = List.range steps
  history : ∀ entry ∈ entries, entry.requestId = requestId →
    entry.tokenHistory = member.prompt ++ member.continuation.take entry.completionStep

/-- The session, the engine and what has been executed agree. -/
structure Replaying [Sha256] (session : ReplaySession) (s : Scheduler) (rounds : List ReplayRound) :
    Prop where
  control : session.control = false
  nodup : session.requestIds.Nodup
  live : ∀ r ∈ s.requests, ∃ member step, FollowsMember session r member step
  answered : ((roundOutputs rounds).map (·.requestId) ++ s.requests.map (·.requestId)).Perm
    session.requestIds
  outputs : ∀ output ∈ roundOutputs rounds, ∃ member, AnswersMember session output member
  records : List.Forall₂ (session.Records · ·) (sampledEntries rounds) session.file
  rows : session.rows = session.file.length
  recorded : ∀ id member steps, session.memberOf id = some member →
    session.rowsOf id = some steps → RecordsMember (sampledEntries rounds) id member steps

section Congr

variable {session session' : ReplaySession} {r : Request} {member : ReplayMember} {step : ℕ}

theorem FollowsMember.congr (h : FollowsMember session r member step)
    (hmember : session'.memberOf r.requestId = session.memberOf r.requestId)
    (hother : session'.rowsOf r.requestId = session.rowsOf r.requestId ∧
      session'.advancesOf r.requestId = session.advancesOf r.requestId) :
    FollowsMember session' r member step where
  memberOf := hmember.trans h.memberOf
  rowsOf := hother.1.trans h.rowsOf
  advancesOf := hother.2.trans h.advancesOf
  tokenIds := h.tokenIds
  prompt := h.prompt
  maxTokens := h.maxTokens
  ignoreEos := h.ignoreEos
  lt := h.lt

theorem AnswersMember.congr {output : RequestOutput} (h : AnswersMember session output member)
    (hmember : session'.memberOf output.requestId = session.memberOf output.requestId)
    (hother : session'.rowsOf output.requestId = session.rowsOf output.requestId ∧
      session'.advancesOf output.requestId = session.advancesOf output.requestId) :
    AnswersMember session' output member where
  memberOf := hmember.trans h.memberOf
  rowsOf := hother.1.trans h.rowsOf
  advancesOf := hother.2.trans h.advancesOf
  tokenIds := h.tokenIds
  finished := h.finished

/-- A request on its frozen history stops exactly with the last token there. -/
theorem FollowsMember.stopsAt {seq : Sequence} (h : FollowsMember session seq.request member step)
    (hok : seq.RunningOk) (eosTokenIds : List Token) (token : Token) :
    seq.stopsAt eosTokenIds token = decide (member.continuation.length ≤ step + 1) := by
  have htokens : seq.tokenIds = member.prompt ++ member.continuation.take step := h.tokenIds
  have hprompt : seq.numPromptTokens = member.prompt.length := h.prompt
  have hmax : seq.samplingParams.maxTokens = member.continuation.length := h.maxTokens
  have hignore : seq.samplingParams.ignoreEos = true := h.ignoreEos
  have hcount : (seq.appendToken token).numCompletionTokens = step + 1 := by
    show seq.numTokens + 1 - seq.numPromptTokens = step + 1
    rw [hok.numTokens, htokens, hprompt, List.length_append, List.length_take,
      Nat.min_eq_left h.lt.le]
    omega
  rw [Sequence.stopsAt, Scheduler.hitsStop, hcount]
  show (decide (seq.samplingParams.maxTokens ≤ step + 1) ||
    (decide (token ∈ eosTokenIds) && !seq.samplingParams.ignoreEos)) = _
  rw [hmax, hignore, Bool.not_true, Bool.and_false, Bool.or_false]

/-- The agreement does not mention the recorded events. -/
theorem Replaying.withEvents [Sha256] {s : Scheduler} {rounds : List ReplayRound}
    (R : Replaying session s rounds) (events : List Json) :
    Replaying { session with executionEvents := events } s rounds where
  control := R.control
  nodup := R.nodup
  live r hr := by
    obtain ⟨member, step, F⟩ := R.live r hr
    exact ⟨member, step, F.congr rfl ⟨rfl, rfl⟩⟩
  answered := R.answered
  outputs output houtput := by
    obtain ⟨member, F⟩ := R.outputs output houtput
    exact ⟨member, F.congr rfl ⟨rfl, rfl⟩⟩
  records := R.records
  rows := R.rows
  recorded := R.recorded

end Congr

variable [HashFunction] [Sha256]

/-- One step of the engine with the replay hook: the hook sees the plan, the raw logits and the
result, and the scheduler applies the result it leaves behind. -/
inductive ReplayStep : EngineState × ReplaySession → ReplayRound → EngineState × ReplaySession → Prop
  | round {st st₁ st₂ : EngineState} {session session' : ReplaySession} {plan : StepPlan}
      {execution : Execution} {result : StepResult} {outputs : List RequestOutput}
      (hplan : Scheduler.planStep st = .ok (some plan) st₁)
      (hgreedy : execution.Greedy session.plan.vocabSize plan)
      (hrecord : session.recordAndAdvance plan (execution.result plan) execution.logits =
        .ok (session', result))
      (happly : Scheduler.applyStepResult result st₁ = .ok outputs st₂) :
      ReplayStep (st, session) ⟨plan, execution, outputs⟩ (st₂, session')

/-! ### Steps -/

section Step

variable {session session' : ReplaySession} {st st₁ : EngineState} {rounds : List ReplayRound}
  {plan : StepPlan} {execution : Execution}

omit [Sha256] in
/-- The requests of the entries of a plan are distinct. -/
theorem nodup_requestIds (I : Inv st₁.1 st₁.2) (hinFlight : st₁.1.inFlight = some plan) :
    (plan.sequences.map (·.requestId)).Nodup := by
  rw [I.entries plan hinFlight, plannedEntries, List.map_map]
  have hids : (st₁.1.running.map (·.requestId)) = st₁.1.running.map (·.seqId) :=
    List.map_congr_left fun seq hseq =>
      I.core.identified.requestId _ (List.mem_map_of_mem (List.mem_append_left _ hseq))
  have hnodup := (List.nodup_append.mp I.core.nodup_ids).1
  rw [← hids] at hnodup
  exact hnodup.sublist (List.filter_sublist.map _)

/-- A sampled entry of a plan follows the frozen history of its member. -/
theorem Replaying.expects (R : Replaying session st.1 rounds) (I : Inv st.1 st.2)
    (hplan : Scheduler.planStep st = .ok (some plan) st₁) :
    ∀ planned ∈ plan.sequences, planned.samplingAllowed = true →
      ∃ member frozen, session.Expects planned member frozen := by
  obtain ⟨I₁, hinFlight, hrequests, -⟩ := I.of_planStep hplan
  intro planned hplanned hsampling
  rw [I₁.entries plan hinFlight] at hplanned
  obtain ⟨seq, hseq, rfl⟩ := List.mem_map.mp hplanned
  obtain ⟨hseq, hscheduled⟩ := List.mem_filter.mp hseq
  have hok := I₁.core.running seq hseq
  obtain ⟨member, step, F⟩ := R.live seq.request
    (hrequests.mem_iff.mp (List.mem_map_of_mem (List.mem_append_left _ hseq)))
  have hends : seq.numCachedTokens + seq.numScheduledTokens = seq.numTokens :=
    of_decide_eq_true hsampling
  have htokens : seq.tokenIds = member.prompt ++ member.continuation.take step := F.tokenIds
  have hlength : seq.numTokens = member.prompt.length + step := by
    rw [hok.numTokens, htokens, List.length_append, List.length_take, Nat.min_eq_left F.lt.le]
  have hstep : (seq.plannedEntry st₁.2).completionStep = step := by
    show seq.numTokens - seq.numPromptTokens = step
    have hprompt : seq.numPromptTokens = member.prompt.length := F.prompt
    omega
  have hhistory : (seq.plannedEntry st₁.2).tokenHistory =
      member.prompt ++ member.continuation.take (seq.plannedEntry st₁.2).completionStep :=
    hstep.symm ▸ htokens
  refine ⟨member, member.continuation.get ⟨step, F.lt⟩, F.memberOf, hstep.symm ▸ F.rowsOf,
    hstep.symm ▸ F.advancesOf, ?_, hhistory, ?_, ⟨Nat.le_add_right _ _, ?_⟩, rfl⟩
  · rw [hstep, List.getElem?_eq_getElem F.lt]
    rfl
  · exact hends.trans hok.numTokens
  · exact (hends.trans hok.numTokens).le

/-- The result that goes on with the frozen tokens is accepted. -/
theorem Replaying.accepts (R : Replaying session st.1 rounds) (I : Inv st.1 st.2)
    (hplan : Scheduler.planStep st = .ok (some plan) st₁) :
    Accepts st₁.1 ⟨plan.id, plan.sequences.map session.forced⟩ := by
  obtain ⟨I₁, hinFlight, -, -⟩ := I.of_planStep hplan
  refine I₁.accepts_iff.mpr ⟨plan, hinFlight, rfl, ?_⟩
  rw [List.forall₂_map_right_iff, List.forall₂_same]
  intro planned hplanned
  refine ⟨rfl, rfl, ?_⟩
  cases hsampling : planned.samplingAllowed with
  | false => simp [ReplaySession.forced, hsampling]
  | true =>
    obtain ⟨member, frozen, h⟩ := R.expects I hplan planned hplanned hsampling
    simp [ReplaySession.forced, hsampling, h.memberOf, h.frozen]

omit [HashFunction] in
/-- Recording changes neither the members nor the requests they belong to. -/
theorem memberOf_of_records {plans : List SequenceStepPlan} {new : List PredictionRow}
    (h : session.RecordsPlans session' plans new) (id : ℕ) :
    session'.memberOf id = session.memberOf id := by
  rw [h.config]
  rfl

/-- A sampled sequence takes the frozen token of its member. -/
theorem Replaying.samples (R : Replaying session st.1 rounds) (I : Inv st.1 st.2)
    (hplan : Scheduler.planStep st = .ok (some plan) st₁) {new : List PredictionRow}
    (hrecords : session.RecordsPlans session' plan.sequences new) {seq : Sequence}
    (hseq : seq ∈ st₁.1.running) {token : Token}
    (hsamples : Samples (plan.sequences.map session.forced) seq token) :
    ∃ member step, FollowsMember session seq.request member step ∧
      member.continuation[step]? = some token ∧
      session'.rowsOf seq.requestId = some (step + 1) ∧
      session'.advancesOf seq.requestId = some (member.continuation.take (step + 1)) := by
  obtain ⟨I₁, hinFlight, hrequests, -⟩ := I.of_planStep hplan
  obtain ⟨member, step, F⟩ := R.live seq.request
    (hrequests.mem_iff.mp (List.mem_map_of_mem (List.mem_append_left _ hseq)))
  obtain ⟨planned, hplanned, hforced⟩ := List.mem_map.mp hsamples.mem
  have hid : planned.requestId = seq.requestId := congrArg SequenceStepResult.requestId hforced
  have htoken : (session.forced planned).sampledToken = some token :=
    congrArg SequenceStepResult.sampledToken hforced
  cases hsampling : planned.samplingAllowed with
  | false => simp [ReplaySession.forced, hsampling] at htoken
  | true =>
    obtain ⟨member', frozen, E⟩ := R.expects I hplan planned hplanned hsampling
    have hmember := E.memberOf
    have hstep := E.rowsOf
    rw [hid] at hmember hstep
    obtain rfl : member = member' := Option.some.inj (F.memberOf.symm.trans hmember)
    obtain rfl : step = planned.completionStep := Option.some.inj (F.rowsOf.symm.trans hstep)
    have hafter := hrecords.sampled planned hplanned hsampling member E.memberOf
    rw [hid] at hafter
    refine ⟨member, _, F, ?_, hafter⟩
    simpa [ReplaySession.forced, hsampling, E.memberOf] using htoken

/-- Nothing is recorded for a request that is not sampled. -/
theorem Replaying.other (R : Replaying session st.1 rounds) (I : Inv st.1 st.2)
    (hplan : Scheduler.planStep st = .ok (some plan) st₁) {new : List PredictionRow}
    (hrecords : session.RecordsPlans session' plan.sequences new) {id : ℕ}
    (hnot : ∀ seq ∈ st₁.1.running, ∀ token,
      Samples (plan.sequences.map session.forced) seq token → seq.requestId ≠ id) :
    session'.rowsOf id = session.rowsOf id ∧ session'.advancesOf id = session.advancesOf id := by
  obtain ⟨I₁, hinFlight, -, -⟩ := I.of_planStep hplan
  refine hrecords.other id fun planned hplanned hsampling => ?_
  obtain ⟨member, frozen, E⟩ := R.expects I hplan planned hplanned hsampling
  have hentry := hplanned
  rw [I₁.entries plan hinFlight] at hentry
  obtain ⟨seq, hseq, rfl⟩ := List.mem_map.mp hentry
  obtain ⟨hseq, hscheduled⟩ := List.mem_filter.mp hseq
  refine hnot seq hseq frozen ⟨hscheduled, hsampling, List.mem_map.mpr ⟨_, hplanned, ?_⟩⟩
  rw [ReplaySession.forced, if_pos hsampling, E.memberOf, Option.bind_some, E.frozen]
  rfl

/-- The sampled entries of a request after a recorded step. -/
theorem Replaying.recordsMember (R : Replaying session st.1 rounds) (I : Inv st.1 st.2)
    (hplan : Scheduler.planStep st = .ok (some plan) st₁) {new : List PredictionRow}
    (hrecords : session.RecordsPlans session' plan.sequences new) (outputs : List RequestOutput)
    {id steps : ℕ} {member : ReplayMember} (hmember : session.memberOf id = some member)
    (hsteps : session'.rowsOf id = some steps) :
    RecordsMember (sampledEntries (rounds ++ [⟨plan, execution, outputs⟩])) id member steps := by
  obtain ⟨I₁, hinFlight, -, -⟩ := I.of_planStep hplan
  have hentries : sampledEntries (rounds ++ [⟨plan, execution, outputs⟩]) =
      sampledEntries rounds ++ plan.sequences.filter (·.samplingAllowed) := by
    simp [sampledEntries, List.flatMap_append]
  have hnodup : ((plan.sequences.filter (·.samplingAllowed)).map (·.requestId)).Nodup :=
    (nodup_requestIds I₁ hinFlight).sublist (List.filter_sublist.map _)
  by_cases hsampled : ∃ planned ∈ plan.sequences, planned.samplingAllowed = true ∧
      planned.requestId = id
  · obtain ⟨planned, hplanned, hsampling, rfl⟩ := hsampled
    obtain ⟨member', frozen, E⟩ := R.expects I hplan planned hplanned hsampling
    obtain rfl : member = member' := Option.some.inj (hmember.symm.trans E.memberOf)
    obtain ⟨hrows, -⟩ := hrecords.sampled planned hplanned hsampling member E.memberOf
    obtain rfl : planned.completionStep + 1 = steps := Option.some.inj (hrows.symm.trans hsteps)
    have hbefore := R.recorded _ _ _ E.memberOf E.rowsOf
    have hmem : planned ∈ plan.sequences.filter (·.samplingAllowed) :=
      List.mem_filter.mpr ⟨hplanned, hsampling⟩
    have hone := filter_of_nodup hnodup hmem
    rw [hentries]
    refine ⟨?_, fun entry hentry hid => ?_⟩
    · rw [List.filter_append, hone, List.map_append, hbefore.steps, List.range_succ]
      rfl
    · rcases List.mem_append.mp hentry with hentry | hentry
      · exact hbefore.history entry hentry hid
      · have hsame : entry ∈ [planned] :=
          hone ▸ List.mem_filter.mpr ⟨hentry, decide_eq_true hid⟩
        obtain rfl := List.mem_singleton.mp hsame
        exact E.history
  · have hnot : ∀ planned ∈ plan.sequences, planned.samplingAllowed = true →
        planned.requestId ≠ id := fun planned hplanned hsampling hid =>
      hsampled ⟨planned, hplanned, hsampling, hid⟩
    have hbefore := R.recorded id member steps hmember
      ((hrecords.other id hnot).1.symm.trans hsteps)
    rw [hentries]
    refine ⟨?_, fun entry hentry hid => ?_⟩
    · have hnone : (plan.sequences.filter (·.samplingAllowed)).filter
          (fun entry => decide (entry.requestId = id)) = [] := by
        rw [List.filter_eq_nil_iff]
        intro entry hentry
        obtain ⟨hentry, hsampling⟩ := List.mem_filter.mp hentry
        simpa using hnot entry hentry hsampling
      rw [List.filter_append, hnone, List.append_nil]
      exact hbefore.steps
    · rcases List.mem_append.mp hentry with hentry | hentry
      · exact hbefore.history entry hentry hid
      · obtain ⟨hentry, hsampling⟩ := List.mem_filter.mp hentry
        exact absurd hid (hnot entry hentry hsampling)

/-- **A step keeps the agreement.** -/
theorem Replaying.step (R : Replaying session st.1 rounds) (I : Inv st.1 st.2)
    (hplan : Scheduler.planStep st = .ok (some plan) st₁) {new : List PredictionRow}
    (hrecords : session.RecordsPlans session' plan.sequences new) {all : List Sequence}
    {s' : Scheduler} {kv' : BlockPool}
    (A : AppliesTo st₁.1 st₁.2 ⟨plan.id, plan.sequences.map session.forced⟩ all s' kv') :
    Replaying session' s'
      (rounds ++ [⟨plan, execution, (all.filter Sequence.isFinished).map Sequence.output⟩]) := by
  obtain ⟨I₁, hinFlight, hrequests, -⟩ := I.of_planStep hplan
  have hmember := memberOf_of_records hrecords
  have hids : ∀ r ∈ st₁.1.requests, r.requestId = r.seqId := I₁.core.identified.requestId
  have hrunning : ∀ seq ∈ st₁.1.running, seq.request ∈ st₁.1.requests := fun seq hseq =>
    List.mem_map_of_mem (List.mem_append_left _ hseq)
  have houtputs : roundOutputs (rounds ++
      [⟨plan, execution, (all.filter Sequence.isFinished).map Sequence.output⟩]) =
      roundOutputs rounds ++ (all.filter Sequence.isFinished).map Sequence.output := by
    simp [roundOutputs, List.flatMap_append]
  have hentries : sampledEntries (rounds ++
      [⟨plan, execution, (all.filter Sequence.isFinished).map Sequence.output⟩]) =
      sampledEntries rounds ++ plan.sequences.filter (·.samplingAllowed) := by
    simp [sampledEntries, List.flatMap_append]
  have hconfig : session'.control = session.control ∧ session'.requestIds = session.requestIds ∧
      session'.plan = session.plan := by
    rw [hrecords.config]
    exact ⟨rfl, rfl, rfl⟩
  refine ⟨hconfig.1.trans R.control, hconfig.2.1.symm ▸ R.nodup, fun r' hr' => ?_, ?_,
    fun output houtput => ?_, ?_, ?_, fun id member steps hm hsteps => ?_⟩
  · rcases A.requests I₁.core hr' with ⟨seq, hseq, token, hsamples, hgoes, rfl⟩ | ⟨hr, hnot⟩
    · obtain ⟨member, step, F, htoken, hrows, hadvances⟩ :=
        R.samples I hplan hrecords hseq hsamples
      have htake : member.continuation.take (step + 1) = member.continuation.take step ++ [token] := by
        rw [List.take_add_one, htoken, Option.toList_some]
      refine ⟨member, step + 1, (hmember _).trans F.memberOf, hrows, hadvances, ?_, F.prompt,
        F.maxTokens, F.ignoreEos, ?_⟩
      · show seq.tokenIds ++ [token] = _
        rw [htake, ← List.append_assoc, ← F.tokenIds]
        rfl
      · -- a sequence that goes on has not reached the end of its continuation
        rw [F.stopsAt (I₁.core.running seq hseq), decide_eq_false_iff_not, not_le] at hgoes
        exact hgoes
    · obtain ⟨member, step, F⟩ := R.live r' (hrequests.mem_iff.mp hr)
      refine ⟨member, step, F.congr (hmember _) (R.other I hplan hrecords ?_)⟩
      intro seq hseq token hsamples hid
      refine hnot seq hseq token hsamples ?_
      rw [← hids r' hr, ← hid]
      exact (hids _ (hrunning seq hseq)).symm
  · have hconfig' := A.config
    rw [houtputs, List.map_append, List.append_assoc, hconfig.2.1, hconfig', Scheduler.requests]
    refine (List.Perm.append_left _ (perm_of_stepped A.stepped)).trans ?_
    exact ((hrequests.map _).append_left _).trans R.answered
  · rw [houtputs] at houtput
    rcases List.mem_append.mp houtput with houtput | houtput
    · obtain ⟨member, F⟩ := R.outputs output houtput
      refine ⟨member, F.congr (hmember _) (R.other I hplan hrecords ?_)⟩
      -- an answered request is no longer live
      intro seq hseq token hsamples hid
      have hnodup := R.answered.nodup_iff.mpr R.nodup
      refine (List.nodup_append.mp hnodup).2.2 _ (List.mem_map_of_mem houtput) _
        (List.mem_map_of_mem (hrequests.mem_iff.mp (hrunning seq hseq))) hid.symm
    · obtain ⟨seq, hseq, token, hsamples, hstops, rfl⟩ :=
        output_of_stepped A.stepped I₁.core.running houtput
      obtain ⟨member, step, F, htoken, hrows, hadvances⟩ :=
        R.samples I hplan hrecords hseq hsamples
      rw [F.stopsAt (I₁.core.running seq hseq), decide_eq_true_eq] at hstops
      have hlast : step + 1 = member.continuation.length := by
        have hlt := F.lt
        omega
      have htake : member.continuation.take (step + 1) = member.continuation := by
        rw [hlast, List.take_length]
      refine ⟨member, (hmember _).trans F.memberOf, hlast ▸ hrows, htake ▸ hadvances, ?_, rfl⟩
      have htokens : seq.tokenIds = member.prompt ++ member.continuation.take step := F.tokenIds
      have hprompt : seq.numPromptTokens = member.prompt.length := F.prompt
      show seq.completionTokenIds ++ [token] = member.continuation
      rw [Sequence.completionTokenIds, htokens, hprompt, List.drop_left]
      rwa [List.take_add_one, htoken, Option.toList_some] at htake
  · rw [hentries, hrecords.file]
    have hsame : ∀ planned row, session.Records planned row → session'.Records planned row := by
      rintro planned row ⟨member, frozen, logits, token, hm, hfrozen, hgreedy, rfl⟩
      refine ⟨member, frozen, logits, token, (hmember _).trans hm, hfrozen, ?_, ?_⟩
      · rw [hconfig.2.2]
        exact hgreedy
      · rw [hconfig.2.2]
    exact List.rel_append (R.records.imp hsame) (hrecords.records.imp hsame)
  · rw [hrecords.rows, hrecords.file, R.rows, List.length_append]
  · exact R.recordsMember I hplan hrecords _ ((hmember _).symm.trans hm) hsteps

/-- **No check of a step fails**, and its result is applied. -/
theorem Replaying.step_ok (R : Replaying session st.1 rounds) (I : Inv st.1 st.2)
    (hplan : Scheduler.planStep st = .ok (some plan) st₁)
    (hgreedy : execution.Greedy session.plan.vocabSize plan) :
    ∃ session' new all s' kv',
      session.recordAndAdvance plan (execution.result plan) execution.logits =
        .ok (session', ⟨plan.id, plan.sequences.map session.forced⟩) ∧
      ({ session with executionEvents := session.executionEvents ++ [plan.toJson] } :
        ReplaySession).RecordsPlans session' plan.sequences new ∧
      Scheduler.applyStepResult ⟨plan.id, plan.sequences.map session.forced⟩ st₁ =
        .ok ((all.filter Sequence.isFinished).map Sequence.output) (s', kv') ∧
      AppliesTo st₁.1 st₁.2 ⟨plan.id, plan.sequences.map session.forced⟩ all s' kv' := by
  obtain ⟨I₁, hinFlight, -, -⟩ := I.of_planStep hplan
  obtain ⟨session', new, hrecord, hrecords⟩ := ReplaySession.recordAndAdvance_ok R.control
    (nodup_requestIds I₁ hinFlight) (R.expects I hplan) hgreedy
  obtain ⟨all, s', kv', happly, A⟩ := I₁.applyStepResult (R.accepts I hplan)
  exact ⟨session', new, all, s', kv', hrecord, hrecords, happly, A⟩

/-- **A round keeps the agreement.** -/
theorem Replaying.round {st' : EngineState} {round : ReplayRound}
    (R : Replaying session st.1 rounds) (I : Inv st.1 st.2)
    (h : ReplayStep (st, session) round (st', session')) :
    Replaying session' st'.1 (rounds ++ [round]) ∧ session' = { session with
      nextRows := session'.nextRows
      advances := session'.advances
      file := session'.file
      rows := session'.rows
      executionEvents := session.executionEvents ++ [round.plan.toJson] } ∧
      ∃ log, Run Step st log st' := by
  cases h with
  | @round _ st₁ _ _ _ plan execution result outputs hplan hgreedy hrecord happly =>
    obtain ⟨session₁, new, all, s', kv', hrecord', hrecords, happly', A⟩ :=
      R.step_ok I hplan hgreedy
    rw [hrecord] at hrecord'
    obtain ⟨rfl, rfl⟩ := Prod.mk.inj (Except.ok.inj hrecord')
    have hrun : Run Step st _ st' :=
      (Run.single (.planStep hplan)).append (Run.single (.applyStepResult happly))
    rw [happly] at happly'
    cases happly'
    exact ⟨(R.withEvents _).step I hplan hrecords A, hrecords.config, _, hrun⟩

end Step

end VllmOxide
