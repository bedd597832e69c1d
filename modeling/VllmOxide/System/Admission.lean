import VllmOxide.Scheduling.Blocked
import VllmOxide.Scheduling.Selection
import VllmOxide.System.Order

/-!
# The head of the queue

Every plan leaves the longest part of the queue waiting that has to wait: the test for admission
fails for its head. The plan names this head with a reason that holds in the state it leaves
behind. A reason found before any work was selected is kept even if the plan then spends its whole
token budget, so the budget is not reported in this case.

## Main definitions

* `blockedBefore`: the report before any work is selected.
* `StepPlan.ReportsHead`: what a plan says about the queue it leaves.

## Main results

* `EngineConfig.head_reported`: every plan reports the head of the queue truthfully.
* `tokenBudget_not_reported`: a plan that spends its budget and reports another limit.
-/

namespace VllmOxide

variable [HashFunction]

/-- What is reported for the head of the queue after the preemptions, before any work is
selected. -/
def blockedBefore (st : EngineState) : Option BlockedAdmission :=
  match Scheduler.preemptIfNeeded st with
  | .ok _ (s, kv) => s.admissionBlock kv 0
  | .error _ _ => none

/-- What a plan says about the queue it leaves behind. -/
structure StepPlan.ReportsHead (plan : StepPlan) (config : EngineConfig)
    (before after : EngineState) : Prop where
  isSome_iff : plan.blockedAdmission.isSome = true ↔ after.1.waiting ≠ []
  names_head : ∀ blocked, plan.blockedAdmission = some blocked →
    ∃ w tail, after.1.waiting = w :: tail ∧ blocked.requestId = w.requestId ∧
      (blocked.reason = .sequenceLimit → after.1.running.length = config.maxNumSeqs.val) ∧
      (blocked.reason = .kvCache → after.2.canAllocate w = none)
  tokenBudget_iff : ∀ blocked, plan.blockedAdmission = some blocked →
    (blocked.reason = .tokenBudget ↔
      plan.tokenBudget = config.maxNumBatchedTokens.val ∧ blockedBefore before = none)
  /-- The running requests are a prefix of the requests in their order of arrival. -/
  fifo : after.1.requests = before.1.requests
  /-- No longer prefix fits: the head of the queue misses tokens, a place or blocks. -/
  longest : ∀ w tail, after.1.waiting = w :: tail →
    plan.tokenBudget = config.maxNumBatchedTokens.val ∨
      after.1.running.length = config.maxNumSeqs.val ∨ after.2.canAllocate w = none

/-- **The head of the queue is blocked, and the plan says why.** -/
theorem EngineConfig.head_reported (config : EngineConfig)
    (htokens : 1 ≤ config.maxNumBatchedTokens.val) {log : List Event} {st : EngineState}
    (h : Run Step config.initial log st) (hprompts : ∀ e ∈ log, e.Prompted) {plan : StepPlan}
    {st' : EngineState} (hplan : Scheduler.planStep st = .ok (some plan) st') :
    plan.ReportsHead config st st' := by
  have I := EngineConfig.inv_of_run h
  have hgoverns := EngineConfig.governs_of_run h
  have hordered := EngineConfig.ordered_of_run h hprompts
  obtain ⟨selection, n, kv₁, kept, admitted, s₁, hselect, S, R, hcaptures, hsequences, hst'⟩ :=
    I.core.planStep_some hplan
  obtain ⟨s', kv'⟩ := st'
  dsimp only at hselect S R hcaptures hsequences hst'
  have hpos := hordered.waiting_pos
  have hmax : s₁.maxNumBatchedTokens.val = config.maxNumBatchedTokens.val := by
    rw [S.config, ← hgoverns.maxNumBatchedTokens]
  have hseqs : s₁.maxNumSeqs.val = config.maxNumSeqs.val := by
    rw [S.config, ← hgoverns.maxNumSeqs]
  have hspent : plan.tokenBudget = s₁.scheduledTokens := by
    rw [hcaptures.tokenBudget, hsequences, sum_tokenBudget_plannedEntries, Scheduler.scheduledTokens]
  have hspent_le : s₁.scheduledTokens ≤ config.maxNumBatchedTokens.val :=
    S.total_le.trans_eq (congrArg Subtype.val hgoverns.maxNumBatchedTokens)
  have hbefore : blockedBefore st = (st.1.preemptTo n).admissionBlock kv₁ 0 := by
    simp only [blockedBefore, S.preempts]
  have hreported := hcaptures.blockedAdmission.trans R.blocked
  have hwaiting : s'.waiting = s₁.waiting := by rw [hst']
  have hrunning : s'.running = s₁.running := by rw [hst']
  have hlimit : s₁.maxNumSeqs.val ≤ s₁.running.length →
      s'.running.length = config.maxNumSeqs.val := fun hle => by
    rw [hrunning, ← hseqs]
    exact le_antisymm S.core.length_le hle
  rw [← hbefore] at hreported
  have hlongest : ∀ w tail, s'.waiting = w :: tail →
      plan.tokenBudget = config.maxNumBatchedTokens.val ∨
        s'.running.length = config.maxNumSeqs.val ∨ kv'.canAllocate w = none := by
    intro w tail hw
    have hne := I.core.selectWork_head hpos hselect (by simp [← hwaiting, hw])
    obtain ⟨blocked, hblocked⟩ := Option.ne_none_iff_exists'.mp hne
    obtain ⟨q, rest, hq, -, hreason⟩ := Scheduler.of_admissionBlock hblocked
    obtain ⟨rfl, rfl⟩ : w = q ∧ tail = rest := by simpa [← hwaiting, hw] using hq
    rcases hreason with ⟨-, hle⟩ | ⟨-, hle⟩ | ⟨-, hcan⟩
    · exact .inl (hspent.trans (le_antisymm hspent_le (hmax ▸ hle)))
    · exact .inr (.inl (hlimit hle))
    · exact .inr (.inr hcan)
  have hfifo : s'.requests = st.1.requests := by
    rw [← S.ordered hpos, hst']
    rfl
  cases hkept : blockedBefore st with
  | some blocked =>
    -- the head was blocked before anything was selected
    rw [hkept, Option.orElse_some] at hreported
    rw [hbefore] at hkept
    obtain ⟨w, tail, hw, hid, hreason⟩ := I.core.selectWork_blocked hpos
      (by rw [hgoverns.maxNumBatchedTokens]; exact htokens) hselect S.preempts hkept
    have hsome : ∀ other, plan.blockedAdmission = some other → other = blocked :=
      fun other hother => Option.some.inj (hother.symm.trans hreported)
    refine ⟨by simp [hreported, hwaiting, hw], fun other hother => ?_, fun other hother => ?_,
      hfifo, hlongest⟩
    · obtain rfl := hsome other hother
      refine ⟨w, tail, hwaiting.trans hw, hid, fun hr => ?_, fun hr => ?_⟩
      · rcases hreason with ⟨-, hle⟩ | ⟨hkv, -⟩
        · exact hlimit hle
        · cases hr.symm.trans hkv
      · rcases hreason with ⟨hseq, -⟩ | ⟨-, hcan⟩
        · cases hr.symm.trans hseq
        · exact hcan
    · obtain rfl := hsome other hother
      rw [hbefore, hkept]
      refine ⟨fun hr => ?_, fun hnone => absurd hnone.2 (by simp)⟩
      rcases hreason with ⟨hseq, -⟩ | ⟨hkv, -⟩
      · cases hr.symm.trans hseq
      · cases hr.symm.trans hkv
  | none =>
    rw [hkept, Option.orElse_none] at hreported
    refine ⟨⟨fun hsome hnil => ?_, fun hne => ?_⟩, fun blocked hblocked => ?_,
      fun blocked hblocked => ?_, hfifo, hlongest⟩
    · rw [hreported, Scheduler.admissionBlock, ← hwaiting, hnil] at hsome
      cases hsome
    · rw [hreported]
      exact Option.isSome_iff_ne_none.mpr
        (I.core.selectWork_head hpos hselect (by rwa [← hwaiting]))
    · obtain ⟨w, tail, hw, hid, hreason⟩ :=
        Scheduler.of_admissionBlock (hreported.symm.trans hblocked)
      refine ⟨w, tail, hwaiting.trans hw, hid, fun hr => ?_, fun hr => ?_⟩
      · rcases hreason with ⟨ht, -⟩ | ⟨-, hle⟩ | ⟨hkv, -⟩
        · cases hr.symm.trans ht
        · exact hlimit hle
        · cases hr.symm.trans hkv
      · rcases hreason with ⟨ht, -⟩ | ⟨hseq, -⟩ | ⟨-, hcan⟩
        · cases hr.symm.trans ht
        · cases hr.symm.trans hseq
        · exact hcan
    · have hfinal := hreported.symm.trans hblocked
      obtain ⟨w, tail, hw, -, hreason⟩ := Scheduler.of_admissionBlock hfinal
      refine ⟨fun hr => ?_, fun hall => ?_⟩
      · rcases hreason with ⟨-, hle⟩ | ⟨hseq, -⟩ | ⟨hkv, -⟩
        · exact ⟨hspent.trans (le_antisymm hspent_le (hmax ▸ hle)), hkept⟩
        · cases hr.symm.trans hseq
        · cases hr.symm.trans hkv
      · rw [Scheduler.admissionBlock_of_spent hw (by rw [hmax, ← hspent, hall.1])] at hfinal
        rw [← Option.some.inj hfinal]

/-- Two requests of one token; the older one is prefilled and goes on decoding. -/
def decodingBeforeWaiting : List Action :=
  [.addRequest [1] (.limited 2), .addRequest [2] (.limited 1), .planStep,
    .applyStepResult ⟨0, [⟨0, 0, some 7⟩]⟩]

omit [HashFunction] in
theorem prompt_decodingBeforeWaiting {promptTokenIds : List Token} {params : SamplingParams}
    (h : .addRequest promptTokenIds params ∈ decodingBeforeWaiting) : promptTokenIds ≠ [] := by
  simp only [decodingBeforeWaiting, List.mem_cons, Action.addRequest.injEq, List.not_mem_nil,
    or_false, reduceCtorEq] at h
  rcases h with ⟨rfl, rfl⟩ | ⟨rfl, rfl⟩ <;> simp

omit [HashFunction] in
/-- A plan that spends its whole token budget and reports that no other sequence may run. -/
theorem tokenBudget_not_reported :
    letI := constantHash
    ∃ (config : EngineConfig) (log : List Event) (st st' : EngineState) (plan : StepPlan)
      (blocked : BlockedAdmission), Run Step config.initial log st ∧
      (∀ e ∈ log, e.Prompted) ∧ 1 ≤ config.maxNumBatchedTokens.val ∧
      1 ≤ config.maxNumSeqs.val ∧ Scheduler.planStep st = .ok (some plan) st' ∧
      plan.tokenBudget = config.maxNumBatchedTokens.val ∧
      plan.blockedAdmission = some blocked ∧ blocked.reason ≠ .tokenBudget := by
  let _ := constantHash
  let config := EngineConfig.plain 4 1 1
  let st := (performAll config.initial decodingBeforeWaiting).2
  have hplanned : (plannedBy st).map (fun planned => (planned.1.tokenBudget,
      planned.1.blockedAdmission)) = some (1, some ⟨1, .sequenceLimit⟩) := by
    decide +kernel
  obtain ⟨⟨plan, st'⟩, hplan, hvalues⟩ := Option.map_eq_some_iff.mp hplanned
  simp only [Prod.mk.injEq] at hvalues
  have hone : config.maxNumBatchedTokens.val = 1 := by
    simp [config, EngineConfig.plain, Usize.clamp, USIZE_MAX]
  exact ⟨config, _, st, st', plan, _, run_performAll decodingBeforeWaiting _,
    acceptsIf_performAll (fun _ _ => prompt_decodingBeforeWaiting) _, hone.ge,
    by simp [config, EngineConfig.plain, Usize.clamp, USIZE_MAX], planStep_of_plannedBy hplan,
    hvalues.1.trans hone.symm, hvalues.2, by simp⟩

omit [HashFunction] in
/-- The waiting request of this example is reported. -/
theorem head_reported_decodingBeforeWaiting :
    letI := constantHash
    let config := EngineConfig.plain 4 1 1
    let st := (performAll config.initial decodingBeforeWaiting).2
    ∃ plan st', plannedBy st = some (plan, st') ∧ plan.ReportsHead config st st' := by
  let _ := constantHash
  let config := EngineConfig.plain 4 1 1
  have hplanned : (plannedBy (performAll config.initial decodingBeforeWaiting).2).isSome = true := by
    decide +kernel
  obtain ⟨⟨plan, st'⟩, hplan⟩ := Option.isSome_iff_exists.mp hplanned
  exact ⟨plan, st', hplan, EngineConfig.head_reported config
    (by simp [config, EngineConfig.plain, Usize.clamp, USIZE_MAX])
    (run_performAll decodingBeforeWaiting _)
    (acceptsIf_performAll (fun _ _ => prompt_decodingBeforeWaiting) _)
    (planStep_of_plannedBy hplan)⟩

end VllmOxide
