import VllmOxide.GoldenCapture.ForcedRun

/-!
# Forced calls

A forced call that runs to its end has recorded exactly one row for every member and step, with the
frozen history of the step, and returns the frozen continuations. On the way no check of the
session fails, whatever the scheduler does: a request follows its frozen history also when it is
preempted, rolled back and recovered.

## Main definitions

* `ReplayCall`: how a forced call starts.

## Main results

* `ReplayCall.replaying`: the session agrees with the engine throughout the call.
* `ReplayCall.forced_replay`: the steps and the end of a forced call.
-/

namespace VllmOxide

open FloatOrder

/-! ### Adding the requests of a call -/

section AddAll

variable [HashFunction]

/-- Adding requests is a run of the engine. -/
theorem run_addAll (requests : List (List Token × SamplingParams)) :
    ∀ st : EngineState, ∃ log, Run Step st log (addAll st requests).2 := by
  induction requests with
  | nil => exact fun st => ⟨[], .nil⟩
  | cons request rest ih =>
    intro st
    obtain ⟨log, hrun⟩ := ih ((st.1.addRequest request.1 request.2).2, st.2)
    exact ⟨_, (Run.single (.addRequest st.1 st.2 request.1 request.2)).append hrun⟩

omit [HashFunction] in
/-- The requests of a call get consecutive ids, and wait with their prompts and parameters. -/
theorem requests_addAll (requests : List (List Token × SamplingParams)) :
    ∀ st : EngineState, (addAll st requests).1 = List.range' st.1.nextRequestId requests.length ∧
      ∃ new, (addAll st requests).2.1.requests = st.1.requests ++ new ∧
        new.map (·.requestId) = (addAll st requests).1 ∧
        List.Forall₂ (fun request r => r.tokenIds = request.1 ∧
          r.numPromptTokens = request.1.length ∧ r.samplingParams = request.2) requests new := by
  induction requests with
  | nil => exact fun st => ⟨rfl, [], by simp [addAll], rfl, .nil⟩
  | cons request rest ih =>
    intro st
    obtain ⟨hids, new, hrequests, hnew, hall⟩ := ih ((st.1.addRequest request.1 request.2).2, st.2)
    refine ⟨?_, (Sequence.new st.1.nextRequestId st.1.nextSeqId request.1 request.2).request :: new,
      ?_, ?_, .cons ⟨rfl, rfl, rfl⟩ hall⟩
    · rw [List.length_cons, List.range'_succ]
      exact congrArg _ hids
    · refine hrequests.trans ?_
      rw [Scheduler.requests_addRequest, List.append_assoc]
      rfl
    · exact congrArg _ hnew

end AddAll

/-! ### The start of a forced call -/

/-- The start of a forced call: an accepted plan, one new request for every member, and the session
bound to them. -/
structure ReplayCall (env : ReplayEnv) (prompts : List (List Token)) (params : List SamplingParams)
    (st st' : EngineState) (session : ReplaySession) : Prop where
  forced : env.control = none
  idle : st.1.isRunning = false
  starts : ∃ session₀ ids cacheBlocks eos maxModelLen isCuda,
    ReplaySession.fromEnv env prompts params = .ok (some session₀) ∧
    addRequests st (prompts.zip params) = .ok (ids, st') ∧
    session₀.bindRequests ids cacheBlocks eos maxModelLen isCuda = .ok session

/-- A plan that is accepted: its members have distinct names and belong to their prompts and
parameters. -/
structure ReplayPlan.Accepted (plan : ReplayPlan) (prompts : List (List Token))
    (params : List SamplingParams) : Prop where
  prompts_length : plan.members.length = prompts.length
  params_length : params.length = prompts.length
  nodup : (plan.members.map (·.memberId)).Nodup
  members : List.Forall₂ (fun member request => member.prompt = request.1 ∧
    request.2.maxTokens = member.continuation.length ∧ request.2.ignoreEos = true)
    plan.members (prompts.zip params)
  nonempty : ∀ member ∈ plan.members, member.prompt ≠ [] ∧ member.continuation ≠ []
  tokens : ∀ member ∈ plan.members, ∀ token ∈ member.prompt ++ member.continuation,
    token.toNat < plan.vocabSize

theorem ReplayPlan.accepted {plan : ReplayPlan} {prompts : List (List Token)}
    {params : List SamplingParams}
    (hvalid : plan.isInvalid prompts.length params.length = false)
    (hmembers : ((plan.members.zip (prompts.zip params)).any fun (member, prompt, params) =>
      member.mismatches plan.vocabSize prompt params) = false) :
    plan.Accepted prompts params := by
  simp only [isInvalid, Bool.or_eq_false_iff, decide_eq_false_iff_not, ne_eq, not_not] at hvalid
  obtain ⟨⟨⟨-, hlength⟩, hparams⟩, hnames⟩ := hvalid
  have hzip : plan.members.length = (prompts.zip params).length := by
    rw [List.length_zip, hlength, hparams, Nat.min_self]
  have hgood : List.Forall₂ (fun member request =>
      member.mismatches plan.vocabSize request.1 request.2 = false)
      plan.members (prompts.zip params) := by
    refine List.forall₂_iff_zip.mpr ⟨hzip, fun {member request} hmem => ?_⟩
    obtain ⟨prompt, p⟩ := request
    have hany := List.any_eq_false.mp hmembers (member, prompt, p) hmem
    exact Bool.eq_false_iff.mpr hany
  have hmember : ∀ {member : ReplayMember} {prompt : List Token} {p : SamplingParams},
      member.mismatches plan.vocabSize prompt p = false → member.prompt = prompt ∧
        member.prompt ≠ [] ∧ member.continuation ≠ [] ∧
        (∀ token ∈ member.prompt ++ member.continuation, token.toNat < plan.vocabSize) ∧
        p.maxTokens = member.continuation.length ∧ p.ignoreEos = true := by
    intro member prompt p h
    simp only [ReplayMember.mismatches, Bool.or_eq_false_iff, decide_eq_false_iff_not, ne_eq,
      not_not, List.isEmpty_eq_false_iff, List.any_eq_false,
      Bool.not_eq_false'] at h
    obtain ⟨⟨⟨⟨⟨⟨⟨⟨⟨⟨⟨⟨⟨-, -⟩, hprompt⟩, hne⟩, hcontinuation⟩, htokens⟩, hmax⟩, hignore⟩, -⟩, -⟩, -⟩, -⟩, -⟩, -⟩ := h
    exact ⟨hprompt, hne, hcontinuation, by simpa using htokens, hmax, hignore⟩
  refine ⟨hlength, hparams, nodup_of_length_dedup (by rw [hnames, List.length_map]),
    hgood.imp fun member request h => ?_, fun member hmem => ?_, fun member hmem => ?_⟩
  · obtain ⟨hprompt, -, -, -, hmax, hignore⟩ := hmember h
    exact ⟨hprompt, hmax, hignore⟩
  · obtain ⟨request, -, h⟩ := exists_of_forall₂ hgood.flip hmem
    obtain ⟨-, hne, hcontinuation, -⟩ := hmember h
    exact ⟨hne, hcontinuation⟩
  · obtain ⟨request, -, h⟩ := exists_of_forall₂ hgood.flip hmem
    exact (hmember h).2.2.2.1

/-- What a session starts with. -/
theorem fromEnv_ok {env : ReplayEnv} {prompts : List (List Token)} {params : List SamplingParams}
    {session : ReplaySession} (h : ReplaySession.fromEnv env prompts params = .ok (some session))
    (hforced : env.control = none) :
    session.plan.Accepted prompts params ∧ session = { session with
      requestIds := []
      nextRows := List.replicate session.plan.members.length 0
      advances := List.replicate session.plan.members.length []
      control := false
      file := []
      rows := 0
      executionEvents := [] } := by
  simp only [ReplaySession.fromEnv, hforced] at h
  obtain ⟨control, hcontrol, h⟩ := exists_of_bind_ok h
  obtain rfl := Except.ok.inj hcontrol
  split at h
  · simp only [Bool.false_eq_true, if_false] at h
    cases h
  · split at h
    · obtain ⟨_, -, h⟩ := exists_of_bind_ok h
      obtain ⟨_, hvalid, h⟩ := exists_of_bind_ok h
      obtain ⟨_, hmembers, h⟩ := exists_of_bind_ok h
      obtain rfl := Option.some.inj (Except.ok.inj h)
      exact ⟨ReplayPlan.accepted (by simpa using not_of_bailIf_ok hvalid)
        (Bool.eq_false_iff.mpr (not_of_bailIf_ok hmembers)), rfl⟩
    · cases h

/-- What a bound session starts with. -/
theorem bindRequests_ok {session session' : ReplaySession} {ids : List ℕ} {cacheBlocks : ℕ}
    {eos : List Token} {maxModelLen : ℕ} {isCuda : Bool}
    (h : session.bindRequests ids cacheBlocks eos maxModelLen isCuda = .ok session') :
    ids.length = session.plan.members.length ∧ ids.Nodup ∧ session' = { session with
      requestIds := ids
      cacheBlocks := some cacheBlocks
      publicBinding := session'.publicBinding } ∧ session'.publicBinding.isSome = true := by
  obtain ⟨_, hcheck, h⟩ := exists_of_bind_ok h
  have hgood := not_of_bailIf_ok hcheck
  simp only [not_or, not_not] at hgood
  obtain rfl := Except.ok.inj h
  exact ⟨hgood.2.1, nodup_of_length_dedup hgood.2.2.1, rfl, rfl⟩

section Start

variable {env : ReplayEnv} {prompts : List (List Token)} {params : List SamplingParams}
  {st st' : EngineState} {session : ReplaySession}

/-- The start of a forced call, member by member. -/
structure Starts (prompts : List (List Token)) (params : List SamplingParams) (st st' : EngineState)
    (session : ReplaySession) : Prop where
  accepted : session.plan.Accepted prompts params
  added : (addAll st (prompts.zip params)).2 = st' ∧
    (addAll st (prompts.zip params)).1 = session.requestIds
  nodup : session.requestIds.Nodup
  length : session.requestIds.length = session.plan.members.length
  config : session = { session with
    nextRows := List.replicate session.plan.members.length 0
    advances := List.replicate session.plan.members.length []
    control := false
    file := []
    rows := 0
    executionEvents := [] }
  binding : session.publicBinding.isSome = true
  cacheBlocks : session.cacheBlocks.isSome = true

theorem ReplayCall.start (h : ReplayCall env prompts params st st' session) :
    Starts prompts params st st' session := by
  obtain ⟨session₀, ids, cacheBlocks, eos, maxModelLen, isCuda, henv, hadd, hbind⟩ := h.starts
  obtain ⟨haccepted, hsession₀⟩ := fromEnv_ok henv h.forced
  obtain ⟨hlength, hnodup, hsession, hbinding⟩ := bindRequests_ok hbind
  obtain ⟨_, -, hadd⟩ := exists_of_bind_ok hadd
  obtain ⟨_, -, hadd⟩ := exists_of_bind_ok hadd
  have hadd := Except.ok.inj hadd
  have hplan : session.plan = session₀.plan := by rw [hsession]
  have hids : session.requestIds = ids := by rw [hsession]
  refine ⟨hplan ▸ haccepted, ⟨congrArg Prod.snd hadd, hids ▸ congrArg Prod.fst hadd⟩,
    hids ▸ hnodup, ?_, ?_, hbinding, ?_⟩
  · rw [hids, hlength, hplan]
  · rw [hsession, hsession₀]
  · rw [hsession]
    rfl

/-- What belongs to a request is found at its position. -/
theorem Starts.atRequest {α : Type} (S : Starts prompts params st st' session) (entries : List α)
    {i id : ℕ} (hi : session.requestIds[i]? = some id) :
    VllmOxide.atRequest session.requestIds entries id = entries[i]? :=
  atRequest_of_findIdx? entries (findIdx?_of_nodup S.nodup hi)

/-- The session agrees with the engine when the call starts. -/
theorem Starts.replaying [Sha256] (S : Starts prompts params st st' session)
    (hidle : st.1.isRunning = false) : Replaying session st'.1 [] := by
  obtain ⟨hids, new, hrequests, hnew, hall⟩ := requests_addAll (prompts.zip params) st
  rw [S.added.1] at hrequests
  rw [S.added.2] at hids hnew
  have hnone : st.1.requests = [] := by
    simp only [Scheduler.isRunning, Bool.or_eq_false_iff, Bool.not_eq_false', List.isEmpty_iff]
      at hidle
    simp [Scheduler.requests, hidle]
  rw [hnone, List.nil_append] at hrequests
  have hconfig := S.config
  have hnext : session.nextRows = List.replicate session.plan.members.length 0 := by rw [hconfig]
  have hadvances : session.advances = List.replicate session.plan.members.length [] := by
    rw [hconfig]
  have hfile : session.file = [] := by rw [hconfig]
  refine ⟨by rw [hconfig], S.nodup, fun r hr => ?_, ?_, by simp [roundOutputs], ?_, ?_, ?_⟩
  · rw [hrequests] at hr
    obtain ⟨i, hi⟩ := List.mem_iff_getElem?.mp hr
    have hid : session.requestIds[i]? = some r.requestId := by
      rw [← hnew, List.getElem?_map, hi]
      rfl
    obtain ⟨request, hrequest, htokens, hprompt, hparams⟩ := getElem?_of_forall₂ hall hi
    obtain ⟨member, hmember, hsame, hmax, hignore⟩ :=
      getElem?_of_forall₂ S.accepted.members hrequest
    have hlt := (List.getElem?_eq_some_iff.mp hmember).1
    have hmem := List.mem_of_getElem? hmember
    refine ⟨member, 0, (S.atRequest _ hid).trans hmember, (S.atRequest _ hid).trans ?_,
      (S.atRequest _ hid).trans ?_, ?_, ?_, ?_, ?_, ?_⟩
    · rw [hnext, List.getElem?_replicate, if_pos hlt]
    · rw [hadvances, List.getElem?_replicate, if_pos hlt]
      rfl
    · rw [htokens, hsame, List.take_zero, List.append_nil]
    · rw [hprompt, hsame]
    · rw [hparams, hmax]
    · rw [hparams, hignore]
    · exact List.length_pos_of_ne_nil (S.accepted.nonempty member hmem).2
  · rw [hrequests, hnew]
    exact .refl _
  · rw [hfile]
    exact .nil
  · rw [hconfig]
    rfl
  · intro id member steps hmember hsteps
    obtain ⟨index, hindex, hat⟩ := Option.bind_eq_some_iff.mp hsteps
    have hzero : steps = 0 := by
      rw [hnext] at hat
      exact List.eq_of_mem_replicate (List.mem_of_getElem? hat)
    rw [hzero]
    exact ⟨rfl, fun entry hentry => absurd hentry List.not_mem_nil⟩

/-! ### The rows of a member -/

/-- The row of a step of a member: it has the frozen history of the step and goes on with the frozen
token. -/
structure PredictionRow.IsStep [Sha256] (row : PredictionRow) (plan : ReplayPlan) (id : ℕ)
    (member : ReplayMember) (k : ℕ) : Prop where
  caseId : row.caseId = member.caseId
  executionGroupId : row.executionGroupId = plan.executionGroupId
  callId : row.callId = plan.callId
  requestId : row.requestId = id
  step : row.step = k
  historySha256 : row.historySha256 = historyHash (member.prompt ++ member.continuation.take k)
  position : row.position = member.prompt.length + k - 1
  effectiveLength : row.effectiveLength = member.prompt.length + k
  greedy : ReplaySession.GreedyRow plan.vocabSize row.logits row.predictedTokenId
  advance : member.continuation[k]? = some row.advanceTokenId

section Rows

variable [Sha256] {s : Scheduler} {rounds : List ReplayRound}

/-- **The rows of a member**, in order, are those of its steps. -/
theorem Replaying.rowsOfMember (R : Replaying session s rounds)
    (hnames : (session.plan.members.map (·.memberId)).Nodup) {i id : ℕ} {member : ReplayMember}
    {steps : ℕ} (hid : session.requestIds[i]? = some id)
    (hmember : session.plan.members[i]? = some member) (hsteps : session.rowsOf id = some steps) :
    List.Forall₂ (fun step row => row.IsStep session.plan id member step) (List.range steps)
      (session.file.filter fun row => decide (row.memberId = member.memberId)) := by
  have hindex := findIdx?_of_nodup R.nodup hid
  have hmemberOf : session.memberOf id = some member :=
    (atRequest_of_findIdx? _ hindex).trans hmember
  obtain ⟨hcompletion, hhistory⟩ := R.recorded id member steps hmemberOf hsteps
  have hfilter : List.Forall₂ (session.Records · ·)
      ((sampledEntries rounds).filter fun entry => decide (entry.requestId = id))
      (session.file.filter fun row => decide (row.memberId = member.memberId)) := by
    refine List.rel_filter ?_ R.records
    rintro entry row ⟨member', frozen, logits, token, hm, -, -, rfl⟩
    show decide _ = true ↔ decide _ = true
    rw [decide_eq_true_iff, decide_eq_true_iff]
    refine ⟨fun heq => ?_, fun heq => ?_⟩
    · rw [heq, hmemberOf] at hm
      exact congrArg ReplayMember.memberId (Option.some.inj hm).symm
    · -- members with the same name are the same member
      obtain ⟨j, hj, hm⟩ := Option.bind_eq_some_iff.mp hm
      have hij : j = i := by
        refine (List.getElem?_inj ?_ hnames).mp ?_
        · simpa using (List.getElem?_eq_some_iff.mp hm).1
        · rw [List.getElem?_map, List.getElem?_map, hm, hmember]
          exact congrArg some heq
      obtain ⟨_, hat, _⟩ := List.findIdx?_eq_some_iff_getElem.mp hj
      obtain ⟨hlt, hiid⟩ := List.getElem?_eq_some_iff.mp hid
      subst hij
      exact (of_decide_eq_true hat).symm.trans hiid
  rw [← hcompletion, List.forall₂_map_left_iff]
  refine forall₂_imp_mem hfilter fun entry hentry row => ?_
  rintro ⟨member', frozen, logits, token, hm, hfrozen, hgreedy, rfl⟩
  obtain ⟨hentry, hentryid⟩ := List.mem_filter.mp hentry
  have hentryid : entry.requestId = id := of_decide_eq_true hentryid
  obtain rfl : member = member' := by
    rw [hentryid, hmemberOf] at hm
    exact Option.some.inj hm
  have hlt := (List.getElem?_eq_some_iff.mp hfrozen).1
  have hentryhistory := hhistory entry hentry hentryid
  have hlength : entry.tokenHistory.length = member.prompt.length + entry.completionStep := by
    rw [hentryhistory, List.length_append, List.length_take, Nat.min_eq_left hlt.le]
  exact ⟨rfl, rfl, rfl, hentryid, rfl, congrArg historyHash hentryhistory,
    congrArg (· - 1) hlength, hlength, hgreedy, hfrozen⟩

/-- The outputs of a call in input order are the frozen continuations of its members. -/
theorem Replaying.answers (R : Replaying session s rounds) {ordered : List RequestOutput}
    (hids : ordered.map (·.requestId) = session.requestIds)
    (hperm : ordered.Perm (roundOutputs rounds)) {i : ℕ} {output : RequestOutput}
    (hi : ordered[i]? = some output) :
    ∃ member, session.plan.members[i]? = some member ∧ AnswersMember session output member := by
  obtain ⟨member, A⟩ := R.outputs output (hperm.mem_iff.mp (List.mem_of_getElem? hi))
  refine ⟨member, ?_, A⟩
  have hid : session.requestIds[i]? = some output.requestId := by
    rw [← hids, List.getElem?_map, hi]
    rfl
  exact (atRequest_of_findIdx? _ (findIdx?_of_nodup R.nodup hid)).symm.trans A.memberOf

/-- The outputs of a call with their decoded texts. -/
def withText (decode : List Token → String) (outputs : List RequestOutput) : List RequestOutput :=
  outputs.map fun o => ⟨o.requestId, o.tokenIds, decode o.tokenIds, o.finished⟩

/-- **The call is accepted** when its outputs are the frozen continuations. -/
theorem Replaying.finish_ok (R : Replaying session s rounds)
    (hlength : session.requestIds.length = session.plan.members.length)
    {binding : Json} (hbinding : session.publicBinding = some binding) {cacheBlocks : ℕ}
    (hblocks : session.cacheBlocks = some cacheBlocks) {ordered : List RequestOutput}
    (hids : ordered.map (·.requestId) = session.requestIds)
    (hperm : ordered.Perm (roundOutputs rounds)) (decode : List Token → String) :
    session.finish (withText decode ordered) =
      .ok (session.artifact (withText decode ordered) binding cacheBlocks) := by
  have hcount : ordered.length = session.plan.members.length := by
    rw [← hlength, ← hids, List.length_map]
  have hchecks : session.plan.members.zipIdx.mapM (fun entry =>
      session.checkOutput (withText decode ordered) entry.2 entry.1) =
        .ok (session.plan.members.zipIdx.map fun _ => ()) := by
    refine mapM_eq_ok fun entry hmem => ?_
    obtain ⟨member, index⟩ := entry
    have hmember : session.plan.members[index]? = some member := by
      simpa using List.mem_zipIdx_iff_getElem?.mp hmem
    have hlt := (List.getElem?_eq_some_iff.mp hmember).1
    have houtput : ordered[index]? = some ordered[index] := List.getElem?_eq_getElem (hcount ▸ hlt)
    obtain ⟨member', hmember', A⟩ := R.answers hids hperm houtput
    obtain rfl : member = member' := Option.some.inj (hmember.symm.trans hmember')
    have hid : session.requestIds[index]? = some ordered[index].requestId := by
      rw [← hids, List.getElem?_map, houtput]
      rfl
    have hindex := findIdx?_of_nodup R.nodup hid
    have hrows := A.rowsOf
    have hadvances := A.advancesOf
    rw [ReplaySession.rowsOf, atRequest_of_findIdx? _ hindex] at hrows
    rw [ReplaySession.advancesOf, atRequest_of_findIdx? _ hindex] at hadvances
    have hkeys : ((withText decode ordered).map (·.requestId)).Nodup := by
      rw [withText, List.map_map]
      exact hids.symm ▸ R.nodup
    have hfind := find?_of_nodup hkeys (List.mem_map_of_mem (List.mem_of_getElem? houtput))
    have hkey : session.requestIds.getD index 0 = ordered[index].requestId := by
      rw [List.getD_eq_getElem?_getD, hid, Option.getD_some]
    simp only [ReplaySession.checkOutput, hkey, hfind]
    refine bailIf_of_not ?_
    rw [List.getD_eq_getElem?_getD, hrows, List.getD_eq_getElem?_getD, hadvances]
    simp [A.tokenIds, A.finished]
  have hcount' : (withText decode ordered).length = session.plan.members.length := by
    rw [withText, List.length_map, hcount]
  rw [ReplaySession.finish, bailIf_of_not (not_not.mpr hcount'), hchecks, hbinding, hblocks]
  rfl

end Rows

variable [HashFunction] [Sha256]

/-- **The session agrees with the engine throughout a forced call.** -/
theorem ReplayCall.replaying {config : EngineConfig} {before : List Event}
    (hbefore : Run Step config.initial before st) (h : ReplayCall env prompts params st st' session)
    {rounds : List ReplayRound} {last : EngineState × ReplaySession}
    (hrun : Run ReplayStep (st', session) rounds last) :
    Inv last.1.1 last.1.2 ∧ Replaying last.2 last.1.1 rounds ∧ last.2 = { session with
      nextRows := last.2.nextRows
      advances := last.2.advances
      file := last.2.file
      rows := last.2.rows
      executionEvents := rounds.map (·.plan.toJson) } := by
  have S := h.start
  have hevents : session.executionEvents = [] := by rw [S.config]
  obtain ⟨log, hadd⟩ := run_addAll (prompts.zip params) st
  rw [S.added.1] at hadd
  have hreached : ∃ log, Run Step config.initial log last.1 ∧ Replaying last.2 last.1.1 rounds ∧
      last.2 = { session with
        nextRows := last.2.nextRows
        advances := last.2.advances
        file := last.2.file
        rows := last.2.rows
        executionEvents := rounds.map (·.plan.toJson) } := by
    refine hrun.invariant (P := fun rounds last => ∃ log, Run Step config.initial log last.1 ∧
      Replaying last.2 last.1.1 rounds ∧ last.2 = { session with
        nextRows := last.2.nextRows
        advances := last.2.advances
        file := last.2.file
        rows := last.2.rows
        executionEvents := rounds.map (·.plan.toJson) }) ⟨_, hbefore.append hadd,
          S.replaying h.idle, by rw [List.map_nil, ← hevents]⟩ ?_
    rintro rounds ⟨st₁, s₁⟩ round ⟨st₂, s₂⟩ - ⟨log, hrun₁, R, hconfig⟩ hstep
    obtain ⟨R', hconfig', log', hrun'⟩ := R.round (EngineConfig.inv_of_run hrun₁) hstep
    refine ⟨_, hrun₁.append hrun', R', hconfig'.trans ?_⟩
    dsimp only at hconfig ⊢
    rw [hconfig, List.map_append]
    rfl
  obtain ⟨log, hreach, R, hconfig⟩ := hreached
  exact ⟨EngineConfig.inv_of_run hreach, R, hconfig⟩

/-- The result of a planned sequence goes on with the frozen token of its step. -/
structure GoesOn (session : ReplaySession) (planned : SequenceStepPlan)
    (executed : SequenceStepResult) : Prop where
  requestId : executed.requestId = planned.requestId
  sequenceId : executed.sequenceId = planned.sequenceId
  notSampled : planned.samplingAllowed = false → executed.sampledToken = none
  sampled : planned.samplingAllowed = true → ∃ (i : ℕ) (member : ReplayMember) (frozen : Token),
    session.requestIds[i]? = some planned.requestId ∧ session.plan.members[i]? = some member ∧
    planned.tokenHistory = member.prompt ++ member.continuation.take planned.completionStep ∧
    member.continuation[planned.completionStep]? = some frozen ∧
    executed.sampledToken = some frozen

omit [HashFunction] [Sha256] in
/-- The member of a request has a position. -/
theorem exists_of_memberOf {id : ℕ} {member : ReplayMember} (h : session.memberOf id = some member) :
    ∃ i : ℕ, session.requestIds[i]? = some id ∧ session.plan.members[i]? = some member := by
  obtain ⟨i, hi, hmember⟩ := Option.bind_eq_some_iff.mp h
  obtain ⟨hlt, hat, _⟩ := List.findIdx?_eq_some_iff_getElem.mp hi
  exact ⟨i, List.getElem?_eq_some_iff.mpr ⟨hlt, of_decide_eq_true hat⟩, hmember⟩

/-- **Forced replay follows the frozen history.** After any number of rounds of a forced call:
* every live request is on the frozen history of its member;
* no check of the next round fails, its result is applied, and it goes on with the frozen tokens;
* when no request is live, exactly one row has been recorded for every member and step, in the order
  of the steps and with the frozen history of the step, and the call is accepted with the frozen
  continuations as its outputs. -/
theorem ReplayCall.forced_replay {config : EngineConfig} {before : List Event}
    (hbefore : Run Step config.initial before st) (h : ReplayCall env prompts params st st' session)
    {rounds : List ReplayRound} {last : EngineState × ReplaySession}
    (hrun : Run ReplayStep (st', session) rounds last) :
    (∀ r ∈ last.1.1.requests, ∃ (i : ℕ) (member : ReplayMember) (k : ℕ),
      session.requestIds[i]? = some r.requestId ∧ session.plan.members[i]? = some member ∧
      k < member.continuation.length ∧ r.tokenIds = member.prompt ++ member.continuation.take k) ∧
    (∀ plan st₁ execution, Scheduler.planStep last.1 = .ok (some plan) st₁ →
      Execution.Greedy execution session.plan.vocabSize plan →
      ∃ session₂ result outputs st₂,
        last.2.recordAndAdvance plan (execution.result plan) execution.logits =
          .ok (session₂, result) ∧
        Scheduler.applyStepResult result st₁ = .ok outputs st₂ ∧
        List.Forall₂ (GoesOn session) plan.sequences result.sequences) ∧
    (last.1.1.isRunning = false →
      (∀ (i : ℕ) (member : ReplayMember), session.plan.members[i]? = some member →
        ∃ id, session.requestIds[i]? = some id ∧
          List.Forall₂ (fun k row => PredictionRow.IsStep row session.plan id member k)
            (List.range member.continuation.length)
            (last.2.file.filter fun row => decide (row.memberId = member.memberId))) ∧
      (∀ row ∈ last.2.file, ∃ member ∈ session.plan.members, row.memberId = member.memberId) ∧
      ∃ ordered, orderRequestOutputs session.requestIds (roundOutputs rounds) = .ok ordered ∧
        ordered.map (·.tokenIds) = session.plan.members.map (·.continuation) ∧
        ∀ decode, ∃ artifact, last.2.finish (withText decode ordered) = .ok artifact) := by
  have S := h.start
  obtain ⟨I, R, hconfig⟩ := h.replaying hbefore hrun
  have hplan : last.2.plan = session.plan := by rw [hconfig]
  have hids : last.2.requestIds = session.requestIds := by rw [hconfig]
  have hposition : ∀ {id : ℕ} {member : ReplayMember}, last.2.memberOf id = some member →
      ∃ i : ℕ, session.requestIds[i]? = some id ∧ session.plan.members[i]? = some member := by
    intro id member hmember
    rw [← hplan, ← hids]
    exact exists_of_memberOf hmember
  refine ⟨fun r hr => ?_, fun plan st₁ execution hstep hgreedy => ?_, fun hdrained => ?_⟩
  · obtain ⟨member, k, F⟩ := R.live r hr
    obtain ⟨i, hid, hmember⟩ := hposition F.memberOf
    exact ⟨i, member, k, hid, hmember, F.lt, F.tokenIds⟩
  · obtain ⟨session₂, new, all, s', kv', hrecord, -, happly, -⟩ :=
      R.step_ok I hstep (hplan.symm ▸ hgreedy)
    refine ⟨session₂, _, _, _, hrecord, happly, ?_⟩
    rw [List.forall₂_map_right_iff, List.forall₂_same]
    intro planned hplanned
    refine ⟨rfl, rfl, fun hsampling => by simp [ReplaySession.forced, hsampling],
      fun hsampling => ?_⟩
    obtain ⟨member, frozen, E⟩ := R.expects I hstep planned hplanned hsampling
    obtain ⟨i, hid, hmember⟩ := hposition E.memberOf
    refine ⟨i, member, frozen, hid, hmember, E.history, E.frozen, ?_⟩
    simp [ReplaySession.forced, hsampling, E.memberOf, E.frozen]
  · have hnone : last.1.1.requests = [] := by
      simp only [Scheduler.isRunning, Bool.or_eq_false_iff, Bool.not_eq_false', List.isEmpty_iff]
        at hdrained
      simp [Scheduler.requests, hdrained]
    have hanswered := R.answered
    rw [hnone, List.map_nil, List.append_nil] at hanswered
    obtain ⟨ordered, hordered, horderedids, hperm⟩ := orderRequestOutputs_ok R.nodup hanswered
    have hcount : ordered.length = session.plan.members.length := by
      rw [← S.length, ← hids, ← horderedids, List.length_map]
    have hat : ∀ (i : ℕ) (member : ReplayMember), session.plan.members[i]? = some member →
        ∃ output, ordered[i]? = some output ∧ AnswersMember last.2 output member := by
      intro i member hmember
      have hlt := hcount ▸ (List.getElem?_eq_some_iff.mp hmember).1
      obtain ⟨member', hmember', A⟩ :=
        R.answers horderedids hperm (List.getElem?_eq_getElem hlt)
      rw [hplan, hmember] at hmember'
      obtain rfl := Option.some.inj hmember'
      exact ⟨_, List.getElem?_eq_getElem hlt, A⟩
    refine ⟨fun i member hmember => ?_, fun row hrow => ?_, ordered, hids ▸ hordered, ?_,
      fun decode => ?_⟩
    · obtain ⟨output, houtput, A⟩ := hat i member hmember
      have hid : last.2.requestIds[i]? = some output.requestId := by
        rw [← horderedids, List.getElem?_map, houtput]
        rfl
      refine ⟨output.requestId, hids ▸ hid, ?_⟩
      have hrows := R.rowsOfMember (hplan ▸ S.accepted.nodup) hid (hplan ▸ hmember) A.rowsOf
      rwa [hplan] at hrows
    · obtain ⟨entry, -, member, frozen, logits, token, hmember, -, -, rfl⟩ :=
        exists_of_forall₂ R.records hrow
      obtain ⟨i, -, hmember⟩ := hposition hmember
      exact ⟨member, List.mem_of_getElem? hmember, rfl⟩
    · refine List.ext_getElem? fun i => ?_
      rw [List.getElem?_map, List.getElem?_map]
      cases hmember : session.plan.members[i]? with
      | none =>
        rw [List.getElem?_eq_none (hcount ▸ List.getElem?_eq_none_iff.mp hmember)]
        rfl
      | some member =>
        obtain ⟨output, houtput, A⟩ := hat i member hmember
        rw [houtput]
        exact congrArg some A.tokenIds
    · obtain ⟨binding, hbinding⟩ := Option.isSome_iff_exists.mp S.binding
      obtain ⟨cacheBlocks, hblocks⟩ := Option.isSome_iff_exists.mp S.cacheBlocks
      exact ⟨_, R.finish_ok (by rw [hids, hplan, S.length]) (by rw [hconfig]; exact hbinding)
        (by rw [hconfig]; exact hblocks) horderedids hperm decode⟩

end Start

/-! ### A call with two members -/

section Example

/-- A digest without any information. -/
@[reducible] def constantDigest : Sha256 where
  hexDigest _ := ""

/-- A plan with two members of one token each. -/
def twoMemberPlan : ReplayPlan where
  protocol := "layered-accuracy-v1"
  schemaVersion := 1
  executionGroupId := "group"
  callId := "call"
  vocabSize := 3
  members := [⟨"case-a", "a", [1, 2], [2]⟩, ⟨"case-b", "b", [0], [0]⟩]

/-- One greedy token after the EOS ids are ignored. -/
def oneToken : SamplingParams :=
  { SamplingParams.limited 1 with ignoreEos := true }

/-- The logits of a step with two sampled sequences. -/
def twoRows : Tensor Float32 where
  dims := [2, 3]
  data := [0, 2, 1, 3, 1, 3]
  length_data := rfl

/-- The session and the engine at the start of the call. -/
def twoMembersStart [HashFunction] : Except String (EngineState × ReplaySession) := do
  let some session ← ReplaySession.fromEnv ⟨some twoMemberPlan, true, none⟩ [[1, 2], [0]]
    [oneToken, oneToken] | throw "no session"
  let (ids, st) ← addRequests (EngineConfig.plain 4 16 2).initial
    ([[1, 2], [0]].zip [oneToken, oneToken])
  let session ← session.bindRequests ids 4 [] 256 false
  return (st, session)

/-- One round as a function. -/
def performRound [HashFunction] [Sha256] (execution : Execution)
    (start : EngineState × ReplaySession) : Option (ReplayRound × (EngineState × ReplaySession)) :=
  match Scheduler.planStep start.1 with
  | .ok (some plan) st₁ =>
    match start.2.recordAndAdvance plan (execution.result plan) execution.logits with
    | .ok (session', result) =>
      match Scheduler.applyStepResult result st₁ with
      | .ok outputs st₂ => some (⟨plan, execution, outputs⟩, (st₂, session'))
      | .error _ _ => none
    | .error _ => none
  | _ => none

theorem replayStep_of_performRound [HashFunction] [Sha256] {execution : Execution}
    {start next : EngineState × ReplaySession} {round : ReplayRound}
    (h : performRound execution start = some (round, next))
    (hgreedy : execution.Greedy start.2.plan.vocabSize round.plan) :
    ReplayStep start round next ∧ round.execution = execution := by
  unfold performRound at h
  split at h
  · split at h
    · split at h
      · obtain ⟨rfl, rfl⟩ := Prod.mk.inj (Option.some.inj h)
        exact ⟨.round ‹_› hgreedy ‹_› ‹_›, rfl⟩
      · cases h
    · cases h
  · cases h

/-- The start is the start of a forced call. -/
theorem replayCall_twoMembers [HashFunction] {st : EngineState} {session : ReplaySession}
    (h : twoMembersStart = .ok (st, session)) :
    ReplayCall ⟨some twoMemberPlan, true, none⟩ [[1, 2], [0]] [oneToken, oneToken]
      (EngineConfig.plain 4 16 2).initial st session := by
  obtain ⟨session₀, henv, h⟩ := exists_of_bind_ok h
  cases session₀ with
  | none => cases h
  | some session₀ =>
    obtain ⟨⟨ids, st₁⟩, hadd, h⟩ := exists_of_bind_ok h
    obtain ⟨session₁, hbind, h⟩ := exists_of_bind_ok h
    obtain ⟨rfl, rfl⟩ := Prod.mk.inj (Except.ok.inj h)
    exact ⟨rfl, rfl, session₀, ids, 4, [], 256, false, henv, hadd, hbind⟩

/-- The two members are served by one step, and go on with the frozen tokens `2` and `0` where the
sampler has returned `1` and `0`. -/
theorem forced_replay_twoMembers :
    letI := constantHash
    letI := constantDigest
    ∃ (rounds : List ReplayRound) (session : ReplaySession) (ordered : List RequestOutput)
      (artifact : Json), rounds.map (·.execution.sampledTokens) = [[1, 0]] ∧
      session.file.map (fun row => (row.memberId, row.step, row.advanceTokenId)) =
        [("a", 0, 2), ("b", 0, 0)] ∧
      orderRequestOutputs [0, 1] (roundOutputs rounds) = .ok ordered ∧
      ordered.map (·.tokenIds) = [[2], [0]] ∧
      session.finish (withText (fun _ => "") ordered) = .ok artifact := by
  let _ := constantHash
  let _ := constantDigest
  let execution : Execution := ⟨twoRows, [1, 0]⟩
  have hrun : (twoMembersStart.toOption.bind (performRound execution)).map (fun next =>
      (next.1.plan.sequences.countP (·.samplingAllowed), next.2.1.1.isRunning,
        next.2.2.file.map fun row => (row.memberId, row.step, row.advanceTokenId))) =
      some (2, false, [("a", 0, 2), ("b", 0, 0)]) := by decide +kernel
  have hplan : twoMembersStart.toOption.map (fun start => (start.2.plan.vocabSize,
      start.2.requestIds, start.2.plan.members.map (·.continuation))) =
      some (3, [0, 1], [[2], [0]]) := by decide +kernel
  obtain ⟨⟨round, last⟩, hround, hlast⟩ := Option.map_eq_some_iff.mp hrun
  obtain ⟨⟨st, session⟩, hstart, hround⟩ := Option.bind_eq_some_iff.mp hround
  rw [hstart] at hplan
  simp only [Option.map_some, Option.some.injEq, Prod.mk.injEq] at hplan hlast
  obtain ⟨hvocab, hids, hcontinuations⟩ := hplan
  obtain ⟨hcount, hdrained, hfile⟩ := hlast
  have hok : twoMembersStart = .ok (st, session) := by
    cases h : twoMembersStart with
    | error => rw [h] at hstart; cases hstart
    | ok start => rw [h] at hstart; exact congrArg Except.ok (Option.some.inj hstart)
  have hgreedy : execution.Greedy session.plan.vocabSize round.plan := by
    refine ⟨fun _ => by rw [hcount, hvocab]; rfl, by decide +kernel, fun _ => ?_⟩
    have hfirst : IsLowestArgmax [0, 2, 1] 1 :=
      isLowestArgmax_lowestArgmax (by simp) (by decide +kernel)
    have hsecond : IsLowestArgmax [3, 1, 3] 0 :=
      isLowestArgmax_lowestArgmax (by simp) (by decide +kernel)
    exact .cons hfirst (.cons hsecond .nil)
  obtain ⟨hstep, hexecution⟩ := replayStep_of_performRound hround hgreedy
  obtain ⟨-, -, hend⟩ := ReplayCall.forced_replay .nil (replayCall_twoMembers hok)
    (Run.single hstep)
  obtain ⟨-, -, ordered, hordered, htokens, hfinish⟩ := hend hdrained
  obtain ⟨artifact, hartifact⟩ := hfinish fun _ => ""
  exact ⟨[round], last.2, ordered, artifact, by simp [hexecution, execution], hfile, hids ▸ hordered,
    htokens.trans hcontinuations, hartifact⟩

end Example

end VllmOxide
