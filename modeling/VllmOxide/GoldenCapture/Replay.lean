import VllmOxide.GoldenCapture.FixedPrefix
import VllmOxide.System.Results

/-!
# Recording an executed step

When the plan of a step follows the frozen histories, the hook of the replay session records one row
for every sampled sequence and replaces every sampled token by the frozen one.

## Main definitions

* `Execution`, `Execution.result`, `Execution.Greedy`: what the model and the sampler return for a
  plan.
* `ReplaySession.Expects`: a planned sequence follows the frozen history of its member.
* `Records`: a row belongs to a planned sequence.

## Main results

* `ReplaySession.recordRows_ok`: recording the sequences of a plan.
-/

namespace VllmOxide

open FloatOrder

/-- What the model and the sampler return for a plan: the raw logits, one row for each sampled
sequence, and the sampled tokens. -/
structure Execution where
  logits : Tensor Float32
  sampledTokens : List Token

/-- The results of the planned sequences: each sampled sequence takes the next token. -/
def takeSampled : List SequenceStepPlan → List Token → List SequenceStepResult
  | [], _ => []
  | planned :: plans, tokens =>
    if planned.samplingAllowed then
      ⟨planned.requestId, planned.sequenceId, tokens.head?⟩ :: takeSampled plans tokens.tail
    else ⟨planned.requestId, planned.sequenceId, none⟩ :: takeSampled plans tokens

/-- The result that `execute_plan` returns. -/
def Execution.result (execution : Execution) (plan : StepPlan) : StepResult where
  planId := plan.id
  sequences := takeSampled plan.sequences execution.sampledTokens

/-- The logits are finite and have a row of the vocabulary for each sampled sequence, and the
sampler returns the first position of the greatest logit of each row. -/
structure Execution.Greedy (execution : Execution) (vocabSize : ℕ) (plan : StepPlan) : Prop where
  dims : 0 < plan.sequences.countP (·.samplingAllowed) →
    execution.logits.dims = [plan.sequences.countP (·.samplingAllowed), vocabSize]
  finite : ∀ v ∈ execution.logits.data, v.isFinite = true
  sampled : 0 < plan.sequences.countP (·.samplingAllowed) →
    List.Forall₂ (fun row token => IsLowestArgmax row token.toNat) execution.logits.toVec2
      execution.sampledTokens

/-- The row that is recorded for a planned sequence of a member. -/
def recordedRow [Sha256] (plan : ReplayPlan) (member : ReplayMember) (planned : SequenceStepPlan)
    (logits : List Float32) (predicted advance : Token) : PredictionRow where
  caseId := member.caseId
  executionGroupId := plan.executionGroupId
  callId := plan.callId
  memberId := member.memberId
  requestId := planned.requestId
  step := planned.completionStep
  historySha256 := historyHash planned.tokenHistory
  position := planned.tokenHistory.length - 1
  phase := planned.phase
  effectiveLength := planned.tokenHistory.length
  logits := logits
  predictedTokenId := predicted
  advanceTokenId := advance

/-- The entry of a list at the position of a request id. -/
def atRequest {α : Type} (requestIds : List ℕ) (entries : List α) (requestId : ℕ) : Option α :=
  (requestIds.findIdx? fun id => decide (id = requestId)).bind fun index => entries[index]?

section AtRequest

variable {α : Type} {requestIds : List ℕ} {entries : List α} {requestId index : ℕ}

theorem atRequest_of_findIdx? (entries : List α)
    (h : (requestIds.findIdx? fun id => decide (id = requestId)) = some index) :
    atRequest requestIds entries requestId = entries[index]? := by
  rw [atRequest, h, Option.bind_some]

/-- Changing the entry of one request. -/
theorem atRequest_set_self
    (h : (requestIds.findIdx? fun id => decide (id = requestId)) = some index)
    (hlt : index < entries.length) (x : α) :
    atRequest requestIds (entries.set index x) requestId = some x := by
  rw [atRequest_of_findIdx? _ h, List.getElem?_set_self hlt]

/-- The entries of the other requests stay. -/
theorem atRequest_set_of_ne
    (h : (requestIds.findIdx? fun id => decide (id = requestId)) = some index) {other : ℕ}
    (hne : other ≠ requestId) (x : α) :
    atRequest requestIds (entries.set index x) other = atRequest requestIds entries other := by
  cases hother : requestIds.findIdx? fun id => decide (id = other) with
  | none => simp only [atRequest, hother, Option.bind_none]
  | some place =>
    rw [atRequest_of_findIdx? _ hother, atRequest_of_findIdx? _ hother, List.getElem?_set_ne]
    rintro rfl
    obtain ⟨_, hat, _⟩ := List.findIdx?_eq_some_iff_getElem.mp h
    obtain ⟨_, hat', _⟩ := List.findIdx?_eq_some_iff_getElem.mp hother
    exact hne ((of_decide_eq_true hat').symm.trans (of_decide_eq_true hat))

end AtRequest

namespace ReplaySession

/-- The member of a request. -/
def memberOf (session : ReplaySession) (requestId : ℕ) : Option ReplayMember :=
  atRequest session.requestIds session.plan.members requestId

/-- The number of rows recorded for a request. -/
def rowsOf (session : ReplaySession) (requestId : ℕ) : Option ℕ :=
  atRequest session.requestIds session.nextRows requestId

/-- The tokens a request has been advanced by. -/
def advancesOf (session : ReplaySession) (requestId : ℕ) : Option (List Token) :=
  atRequest session.requestIds session.advances requestId

/-- A planned sequence follows the frozen history of its member, and `frozen` is the next token
there. -/
structure Expects (session : ReplaySession) (planned : SequenceStepPlan) (member : ReplayMember)
    (frozen : Token) : Prop where
  memberOf : session.memberOf planned.requestId = some member
  rowsOf : session.rowsOf planned.requestId = some planned.completionStep
  advancesOf : session.advancesOf planned.requestId =
    some (member.continuation.take planned.completionStep)
  frozen : member.continuation[planned.completionStep]? = some frozen
  history : planned.tokenHistory =
    member.prompt ++ member.continuation.take planned.completionStep
  positions : planned.logicalPositions.stop = planned.tokenHistory.length
  range : planned.tokenRange.start ≤ planned.tokenRange.stop ∧
    planned.tokenRange.stop ≤ planned.tokenHistory.length
  input : planned.inputTokenIds =
    planned.tokenHistory.extract planned.tokenRange.start planned.tokenRange.stop

/-- The result of a planned sequence with the frozen token in place of the sampled one. -/
def forced (session : ReplaySession) (planned : SequenceStepPlan) : SequenceStepResult where
  requestId := planned.requestId
  sequenceId := planned.sequenceId
  sampledToken :=
    if planned.samplingAllowed then
      (session.memberOf planned.requestId).bind fun member =>
        member.continuation[planned.completionStep]?
    else none

variable [Sha256]

/-- Recording a sequence that follows its frozen history. -/
theorem recordRow_ok {session : ReplaySession} {planned : SequenceStepPlan}
    {member : ReplayMember} {frozen : Token} (h : session.Expects planned member frozen)
    (hcontrol : session.control = false) (executed : SequenceStepResult) {token : Token}
    (htoken : executed.sampledToken = some token) {row : List Float32}
    (hfinite : ∀ v ∈ row, v.isFinite = true) (hargmax : IsLowestArgmax row token.toNat) :
    ∃ index, session.requestIds.findIdx? (fun id => decide (id = planned.requestId)) = some index ∧
      index < session.nextRows.length ∧ index < session.advances.length ∧
      session.recordRow planned executed (some row) = .ok
        ({ session with
            file := session.file ++
              [recordedRow session.plan member planned row token frozen]
            advances := session.advances.set index
              (member.continuation.take (planned.completionStep + 1))
            nextRows := session.nextRows.set index (planned.completionStep + 1)
            rows := session.rows + 1 },
          { executed with sampledToken := some frozen }) := by
  obtain ⟨index, hindex, hmember⟩ := Option.bind_eq_some_iff.mp h.memberOf
  have hnext : session.nextRows[index]? = some planned.completionStep := by
    have hrows := h.rowsOf
    rwa [rowsOf, atRequest_of_findIdx? _ hindex] at hrows
  have hadvances : session.advances[index]? =
      some (member.continuation.take planned.completionStep) := by
    have hadv := h.advancesOf
    rwa [advancesOf, atRequest_of_findIdx? _ hindex] at hadv
  refine ⟨index, hindex, (List.getElem?_eq_some_iff.mp hnext).1,
    (List.getElem?_eq_some_iff.mp hadvances).1, ?_⟩
  have hne : row ≠ [] := List.ne_nil_of_length_pos (Nat.zero_lt_of_lt hargmax.lt)
  have hgreedy : lowestArgmax row = token.toNat :=
    (isLowestArgmax_lowestArgmax hne hfinite).eq hargmax
  have htake : member.continuation.take (planned.completionStep + 1) =
      member.continuation.take planned.completionStep ++ [frozen] := by
    rw [List.take_add_one, h.frozen, Option.toList_some]
  have hany : ¬ (row.any fun v => !v.isFinite) = true := by
    simpa using hfinite
  have hpositions : planned.logicalPositions.stop =
      (member.prompt ++ member.continuation.take planned.completionStep).length := by
    rw [← h.history]
    exact h.positions
  have hinput := h.input
  have hrange := h.range
  rw [h.history] at hinput hrange
  have hchecks : ¬ (planned.completionStep ≠ planned.completionStep ∨
      planned.tokenHistory ≠ member.prompt ++ member.continuation.take planned.completionStep ∨
      planned.logicalPositions.stop ≠
        (member.prompt ++ member.continuation.take planned.completionStep).length ∨
      ¬ (planned.tokenRange.start ≤ planned.tokenRange.stop ∧
        planned.tokenRange.stop ≤
          (member.prompt ++ member.continuation.take planned.completionStep).length ∧
        planned.inputTokenIds =
          (member.prompt ++ member.continuation.take planned.completionStep).extract
            planned.tokenRange.start planned.tokenRange.stop)) := by
    rw [not_or, not_or, not_or, not_not, not_not, not_not, not_not]
    exact ⟨rfl, h.history, hpositions, hrange.1, hrange.2, hinput⟩
  have hstep : session.nextRows.getD index 0 = planned.completionStep := by
    rw [List.getD_eq_getElem?_getD, hnext, Option.getD_some]
  have hadvance : session.advances.getD index [] =
      member.continuation.take planned.completionStep := by
    rw [List.getD_eq_getElem?_getD, hadvances, Option.getD_some]
  simp only [recordRow, hindex, hmember]
  rw [hstep, hadvance]
  simp only [h.frozen, htoken]
  rw [bailIf_of_not hchecks, bailIf_of_not hany, bailIf_of_not (by rw [hgreedy]; simp)]
  simp only [hcontrol, htake, recordedRow, h.history]
  rfl

/-- A row of logits with the token that a greedy sampler takes from it. -/
structure GreedyRow (vocabSize : ℕ) (row : List Float32) (token : Token) : Prop where
  length : row.length = vocabSize
  finite : ∀ v ∈ row, v.isFinite = true
  argmax : IsLowestArgmax row token.toNat

/-- The row belongs to a planned sequence of the session. -/
def Records (session : ReplaySession) (planned : SequenceStepPlan) (row : PredictionRow) : Prop :=
  ∃ member frozen logits token, session.memberOf planned.requestId = some member ∧
    member.continuation[planned.completionStep]? = some frozen ∧
    GreedyRow session.plan.vocabSize logits token ∧
    row = recordedRow session.plan member planned logits token frozen

/-- The session after the planned sequences have been recorded. -/
structure RecordsPlans (session session' : ReplaySession) (plans : List SequenceStepPlan)
    (new : List PredictionRow) : Prop where
  config : session' = { session with
    nextRows := session'.nextRows
    advances := session'.advances
    file := session'.file
    rows := session'.rows }
  file : session'.file = session.file ++ new
  rows : session'.rows = session.rows + new.length
  records : List.Forall₂ (Records session) (plans.filter (·.samplingAllowed)) new
  other : ∀ id, (∀ planned ∈ plans, planned.samplingAllowed = true → planned.requestId ≠ id) →
    session'.rowsOf id = session.rowsOf id ∧ session'.advancesOf id = session.advancesOf id
  sampled : ∀ planned ∈ plans, planned.samplingAllowed = true →
    ∀ member, session.memberOf planned.requestId = some member →
      session'.rowsOf planned.requestId = some (planned.completionStep + 1) ∧
      session'.advancesOf planned.requestId =
        some (member.continuation.take (planned.completionStep + 1))

/-- **Recording the sequences of a plan** that follows the frozen histories: every check passes, and
the results go on with the frozen tokens. -/
theorem recordRows_ok {plans : List SequenceStepPlan} :
    ∀ {session : ReplaySession} {host : List (List Float32)} {tokens : List Token},
      session.control = false → (plans.map (·.requestId)).Nodup →
      (∀ planned ∈ plans, planned.samplingAllowed = true →
        ∃ member frozen, session.Expects planned member frozen) →
      List.Forall₂ (GreedyRow session.plan.vocabSize) host tokens →
      host.length = plans.countP (·.samplingAllowed) →
      ∃ session' new, session.recordRows host plans (takeSampled plans tokens) =
          .ok (session', plans.map session.forced) ∧
        RecordsPlans session session' plans new := by
  induction plans with
  | nil =>
    intro session host tokens _ _ _ _ _
    refine ⟨session, [], by simp [recordRows, takeSampled], rfl, by simp, rfl, .nil, by simp, by simp⟩
  | cons planned plans ih =>
    intro session host tokens hcontrol hnodup hexpects hrows hlength
    obtain ⟨hfresh, hnodup⟩ := List.nodup_cons.mp hnodup
    have hne : ∀ p ∈ plans, p.requestId ≠ planned.requestId := fun p hp heq =>
      hfresh (List.mem_map.mpr ⟨p, hp, heq⟩)
    cases hsampling : planned.samplingAllowed with
    | false =>
      obtain ⟨session', new, hrun, R⟩ := ih hcontrol hnodup
        (fun p hp => hexpects p (List.mem_cons_of_mem _ hp)) hrows
        (by simpa [hsampling] using hlength)
      refine ⟨session', new, ?_, R.config, R.file, R.rows, ?_, fun id hid => ?_, fun p hp hallowed => ?_⟩
      · simp only [recordRows, takeSampled, hsampling, Bool.false_eq_true, if_false, hrun,
          List.map_cons, forced]
        rfl
      · simpa [hsampling] using R.records
      · exact R.other id fun p hp => hid p (List.mem_cons_of_mem _ hp)
      · rcases List.mem_cons.mp hp with rfl | hp
        · rw [hsampling] at hallowed
          cases hallowed
        · exact R.sampled p hp hallowed
    | true =>
      obtain ⟨member, frozen, hexpect⟩ := hexpects planned List.mem_cons_self hsampling
      have hcount : host.length = plans.countP (·.samplingAllowed) + 1 := by
        simpa [hsampling] using hlength
      cases hrows with
      | nil => simp at hcount
      | @cons row token host tokens hrow hrows =>
        obtain ⟨index, hindex, hnextlt, hadvlt, hrecord⟩ := recordRow_ok hexpect hcontrol
          ⟨planned.requestId, planned.sequenceId, some token⟩ rfl hrow.finite hrow.argmax
        set session₁ : ReplaySession := { session with
          file := session.file ++ [recordedRow session.plan member planned row token frozen]
          advances := session.advances.set index
            (member.continuation.take (planned.completionStep + 1))
          nextRows := session.nextRows.set index (planned.completionStep + 1)
          rows := session.rows + 1 } with hsession₁
        have hother : ∀ id, id ≠ planned.requestId → session₁.rowsOf id = session.rowsOf id ∧
            session₁.advancesOf id = session.advancesOf id := fun id hid =>
          ⟨atRequest_set_of_ne hindex hid _, atRequest_set_of_ne hindex hid _⟩
        have hcontrol₁ : session₁.control = false := hcontrol
        obtain ⟨session', new, hrun, R⟩ := ih hcontrol₁ hnodup
          (fun p hp hallowed => by
            obtain ⟨m, f, he⟩ := hexpects p (List.mem_cons_of_mem _ hp) hallowed
            obtain ⟨hrowsOf, hadvancesOf⟩ := hother p.requestId (hne p hp)
            exact ⟨m, f, he.memberOf, hrowsOf.trans he.rowsOf, hadvancesOf.trans he.advancesOf,
              he.frozen, he.history, he.positions, he.range, he.input⟩)
          hrows (by simpa using hcount)
        refine ⟨session', recordedRow session.plan member planned row token frozen :: new, ?_, ?_⟩
        · have hforced : session.forced planned =
              ⟨planned.requestId, planned.sequenceId, some frozen⟩ := by
            rw [forced, if_pos hsampling, hexpect.memberOf, Option.bind_some, hexpect.frozen]
          simp only [recordRows, takeSampled, hsampling, if_true, List.head?_cons, List.tail_cons,
            hrecord, List.map_cons, hforced]
          show (session₁.recordRows host plans (takeSampled plans tokens) >>= fun x =>
            pure (x.1, _ :: x.2)) = _
          rw [hrun]
          rfl
        · have hsame : session₁.rowsOf planned.requestId = some (planned.completionStep + 1) ∧
              session₁.advancesOf planned.requestId =
                some (member.continuation.take (planned.completionStep + 1)) :=
            ⟨atRequest_set_self hindex hnextlt _, atRequest_set_self hindex hadvlt _⟩
          refine ⟨?_, ?_, ?_, ?_, fun id hid => ?_, fun p hp hallowed m hm => ?_⟩
          · exact R.config
          · rw [R.file, hsession₁, List.append_assoc]
            rfl
          · rw [R.rows]
            show session.rows + 1 + new.length = session.rows + (new.length + 1)
            omega
          · rw [List.filter_cons_of_pos hsampling]
            exact .cons ⟨member, frozen, row, token, hexpect.memberOf, hexpect.frozen, hrow, rfl⟩
              R.records
          · have hnext := R.other id fun p hp => hid p (List.mem_cons_of_mem _ hp)
            have hfirst := hother id (hid planned List.mem_cons_self hsampling).symm
            exact ⟨hnext.1.trans hfirst.1, hnext.2.trans hfirst.2⟩
          · rcases List.mem_cons.mp hp with rfl | hp
            · obtain rfl : member = m := Option.some.inj (hexpect.memberOf.symm.trans hm)
              have hnext := R.other p.requestId fun q hq _ => hne q hq
              exact ⟨hnext.1.trans hsame.1, hnext.2.trans hsame.2⟩
            · exact R.sampled p hp hallowed m hm

omit [Sha256] in
/-- The rows of the logits of a greedy execution. -/
theorem greedyRows {execution : Execution} {vocabSize : ℕ} {plan : StepPlan}
    (h : execution.Greedy vocabSize plan) (hpos : 0 < plan.sequences.countP (·.samplingAllowed)) :
    List.Forall₂ (GreedyRow vocabSize) execution.logits.toVec2 execution.sampledTokens ∧
      execution.logits.toVec2.length = plan.sequences.countP (·.samplingAllowed) := by
  have hdims := h.dims hpos
  have hvec : execution.logits.toVec2 =
      (List.range (plan.sequences.countP (·.samplingAllowed))).map fun i =>
        execution.logits.data.extract (i * vocabSize) ((i + 1) * vocabSize) := by
    rw [Tensor.toVec2, hdims]
  have hdata : execution.logits.data.length =
      plan.sequences.countP (·.samplingAllowed) * vocabSize := by
    rw [execution.logits.length_data, hdims]
    simp
  refine ⟨forall₂_imp_mem (h.sampled hpos) fun row hrow token hargmax => ?_, by rw [hvec]; simp⟩
  rw [hvec] at hrow
  obtain ⟨i, hi, rfl⟩ := List.mem_map.mp hrow
  have hle : (i + 1) * vocabSize ≤ execution.logits.data.length := by
    rw [hdata]
    exact Nat.mul_le_mul_right _ (List.mem_range.mp hi)
  refine ⟨?_, fun v hv => h.finite v (List.mem_of_mem_drop (List.mem_of_mem_take hv)), hargmax⟩
  rw [List.extract_eq_take_drop, List.length_take, List.length_drop]
  rw [Nat.add_mul, Nat.one_mul] at hle ⊢
  omega

omit [Sha256] in
/-- Nothing is forced where nothing is sampled. -/
theorem takeSampled_eq_forced (session : ReplaySession) (tokens : List Token)
    {plans : List SequenceStepPlan} (h : ∀ planned ∈ plans, planned.samplingAllowed = false) :
    takeSampled plans tokens = plans.map session.forced := by
  induction plans with
  | nil => rfl
  | cons planned plans ih =>
    have hfirst := h planned List.mem_cons_self
    simp only [takeSampled, hfirst, Bool.false_eq_true, if_false, List.map_cons, forced]
    rw [ih fun p hp => h p (List.mem_cons_of_mem _ hp)]

/-- **Recording a step** whose plan follows the frozen histories: no check fails, and the result
goes on with the frozen tokens. -/
theorem recordAndAdvance_ok {session : ReplaySession} {plan : StepPlan} {execution : Execution}
    (hcontrol : session.control = false) (hnodup : (plan.sequences.map (·.requestId)).Nodup)
    (hexpects : ∀ planned ∈ plan.sequences, planned.samplingAllowed = true →
      ∃ member frozen, session.Expects planned member frozen)
    (hgreedy : execution.Greedy session.plan.vocabSize plan) :
    ∃ session' new, session.recordAndAdvance plan (execution.result plan) execution.logits =
        .ok (session', ⟨plan.id, plan.sequences.map session.forced⟩) ∧
      RecordsPlans { session with executionEvents := session.executionEvents ++ [plan.toJson] }
        session' plan.sequences new := by
  set session₀ : ReplaySession :=
    { session with executionEvents := session.executionEvents ++ [plan.toJson] } with hsession₀
  by_cases hzero : plan.sequences.countP (·.samplingAllowed) = 0
  · have hnone : ∀ planned ∈ plan.sequences, planned.samplingAllowed = false := fun p hp => by
      simpa using List.countP_eq_zero.mp hzero p hp
    have hfilter : plan.sequences.filter (·.samplingAllowed) = [] := by
      simpa using hnone
    refine ⟨session₀, [], ?_, rfl, by simp, rfl, by rw [hfilter]; exact .nil, fun _ _ => ⟨rfl, rfl⟩,
      fun p hp hallowed => ?_⟩
    · simp only [recordAndAdvance, hzero, if_true, Execution.result,
        takeSampled_eq_forced session _ hnone]
      rfl
    · rw [hnone p hp] at hallowed
      cases hallowed
  · have hpos : 0 < plan.sequences.countP (·.samplingAllowed) := Nat.pos_of_ne_zero hzero
    obtain ⟨hrows, hlength⟩ := greedyRows hgreedy hpos
    have hcontrol₀ : session₀.control = false := hcontrol
    obtain ⟨session', new, hrun, R⟩ := recordRows_ok hcontrol₀ hnodup
      (fun p hp hallowed => by
        obtain ⟨m, f, he⟩ := hexpects p hp hallowed
        exact ⟨m, f, he.memberOf, he.rowsOf, he.advancesOf, he.frozen, he.history, he.positions,
          he.range, he.input⟩) hrows hlength
    refine ⟨session', new, ?_, R⟩
    simp only [recordAndAdvance, hzero, if_false]
    rw [bailIf_of_not (not_not.mpr (hgreedy.dims hpos))]
    show (session₀.recordRows execution.logits.toVec2 plan.sequences
      (takeSampled plan.sequences execution.sampledTokens) >>= fun x => pure (x.1, _)) = _
    rw [hrun]
    rfl

end ReplaySession

end VllmOxide
