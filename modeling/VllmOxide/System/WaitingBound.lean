import VllmOxide.System.Order

/-!
# The waiting bound

The documentation of `select_work` bounds the time a request waits: at position `p` of the queue
it is selected within `p + 1` decisions that each admit a request. The argument counts arrivals. A
request that is preempted inside a decision enters the queue at its front, and the same decision may
admit it again before anything else, so that the requests behind it do not move. Decisions that
preempt nothing keep the bound.

## Main definitions

* `CalmStep`: a step that neither preempts nor abandons the requests.
* `Event.Admits`: a call of `planStep` returned a plan that admits a waiting request.

## Main results

* `EngineConfig.waiting_bound`: the bound, for runs of calm steps.
* `preempted_overtakes`: a decision that admits the request it has just preempted, and no other.
-/

namespace VllmOxide

/-- A call of `planStep`, whatever its outcome. -/
def Event.isDecision : Event → Bool
  | .planned _ _ | .planFailed _ _ => true
  | _ => false

/-- A call of `planStep` returned a plan that admits a waiting request; other events are free. -/
def Event.Admits : Event → Prop
  | .planned decision (some _) => decision.admitted ≠ []
  | .planned _ none | .planFailed _ _ => False
  | _ => True

instance : DecidablePred Event.Admits
  | .planned decision (some _) => inferInstanceAs (Decidable (decision.admitted ≠ []))
  | .planned _ none | .planFailed _ _ => isFalse id
  | .accepted _ _ _ | .applied _ _ | .rejected _ _ | .aborted | .abortFailed _ => isTrue trivial

/-- A plan of the log has work for the request. -/
def PlannedIn (log : List Event) (requestId : ℕ) : Prop :=
  ∃ decision plan, .planned decision (some plan) ∈ log ∧
    ∃ entry ∈ plan.sequences, entry.requestId = requestId

theorem PlannedIn.snoc {log : List Event} {requestId : ℕ} (h : PlannedIn log requestId)
    (e : Event) : PlannedIn (log ++ [e]) requestId := by
  obtain ⟨decision, plan, hmem, hentry⟩ := h
  exact ⟨decision, plan, List.mem_append_left _ hmem, hentry⟩

variable [HashFunction]

/-- A step that keeps the requests where they are: no request is abandoned, and where a decision is
taken the decode batch fits the free blocks, so that nothing is preempted. -/
structure CalmStep (st : EngineState) (e : Event) (st' : EngineState) : Prop where
  step : Step st e st'
  fits : e.isDecision = true → st.1.DecodeFits st.2
  live : e ≠ .aborted

/-- Other calls than `abortAllRequests` abandon nothing. -/
theorem CalmStep.perform {st : EngineState} {action : Action}
    (haction : action ≠ .abortAllRequests)
    (hfits : (action.perform st).1.isDecision = true → st.1.DecodeFits st.2) :
    CalmStep st (action.perform st).1 (action.perform st).2 where
  step := step_perform st action
  fits := hfits
  live := by
    cases action with
    | addRequest => simp [Action.perform]
    | planStep | applyStepResult =>
      dsimp only [Action.perform]
      split <;> simp
    | abortAllRequests => exact absurd rfl haction

/-- Where the decode batch fits nothing is preempted. -/
theorem Selected.length_of_fits {s s' : Scheduler} {kv kv₁ kv' : BlockPool} {n : ℕ}
    {kept admitted : List Sequence} (S : Selected s kv n kv₁ kept admitted s' kv')
    (hfits : s.DecodeFits kv) : n = s.running.length := by
  have hsame := Scheduler.preemptLoop_of_fits s.running.length hfits
  have hpreempts := S.preempts
  rw [Scheduler.preemptIfNeeded, hsame] at hpreempts
  simp only [EStateM.Result.ok.injEq, Prod.mk.injEq, true_and] at hpreempts
  have hlength := congrArg (fun s => s.running.length) hpreempts.1
  rw [Scheduler.preemptTo_running, List.length_take] at hlength
  have hle := S.n_le
  omega

/-- Without preemptions the admitted requests are taken from the front of the queue. -/
theorem Selected.waiting_eq {s s' : Scheduler} {kv kv₁ kv' : BlockPool} {n : ℕ}
    {kept admitted : List Sequence} (S : Selected s kv n kv₁ kept admitted s' kv')
    (hpos : ∀ w ∈ s.waiting, 0 < w.numTokens) (hn : n = s.running.length) :
    s.waiting.map Sequence.request =
      admitted.map Sequence.request ++ s'.waiting.map Sequence.request := by
  have hrequests := S.ordered hpos
  have hkept := map_eq_of_forall₂ S.stays fun _ _ h => h.request
  rw [hn, List.take_length] at hkept
  rw [Scheduler.requests, S.running, Scheduler.requests, List.map_append, List.map_append,
    List.map_append, hkept, List.append_assoc] at hrequests
  exact (List.append_cancel_left hrequests).symm

/-- One calm step: the request at a place of the queue is planned, or it moves to the front by at
least one place if a decision was taken. -/
theorem CalmStep.moves {st st' : EngineState} {e : Event} (h : CalmStep st e st')
    (I : Inv st.1 st.2) (hpos : ∀ w ∈ st.1.waiting, 0 < w.numTokens) (he : e.Admits) {q : ℕ}
    {w : Sequence} (hw : st.1.waiting[q]? = some w) :
    PlannedIn [e] w.requestId ∨ ∃ q' w', q' + [e].countP Event.isDecision ≤ q ∧
      st'.1.waiting[q']? = some w' ∧ w'.requestId = w.requestId := by
  have heffect := h.step.effect I
  have hfits := h.fits
  have hlive := h.live
  cases heffect with
  | accepted =>
    have hlt : q < st.1.waiting.length := (List.getElem?_eq_some_iff.mp hw).1
    refine .inr ⟨q, w, by simp [Event.isDecision], ?_, rfl⟩
    exact (List.getElem?_append_left hlt).trans hw
  | @planned n kv₁ kv' kept admitted s plan hinFlight S hsequences hne hid hslots hlengths =>
    have hsplit := S.waiting_eq hpos (S.length_of_fits (hfits rfl))
    have hrequest : (st.1.waiting.map Sequence.request)[q]? = some w.request := by simp [hw]
    rw [hsplit] at hrequest
    by_cases hlt : q < admitted.length
    · -- it is one of the admitted requests
      rw [List.getElem?_append_left (by simpa using hlt), List.getElem?_map] at hrequest
      obtain ⟨seq, hseq, hsame⟩ := Option.map_eq_some_iff.mp hrequest
      have hmem := List.mem_of_getElem? hseq
      refine .inl ⟨_, plan, List.mem_singleton_self _, seq.plannedEntry kv', ?_,
        congrArg Request.requestId hsame⟩
      rw [hsequences, S.running]
      exact List.mem_map_of_mem (List.mem_filter.mpr ⟨List.mem_append_right _ hmem,
        decide_eq_true (S.fresh seq hmem).scheduled_pos⟩)
    · rw [List.getElem?_append_right (by simpa using hlt), List.getElem?_map,
        List.length_map] at hrequest
      obtain ⟨w', hw', hsame⟩ := Option.map_eq_some_iff.mp hrequest
      have hsome : admitted.length ≠ 0 := by
        simpa [Event.Admits, decisionOf] using he
      refine .inr ⟨q - admitted.length, w', ?_, hw', congrArg Request.requestId hsame⟩
      simp only [List.countP_singleton, Event.isDecision, if_true]
      omega
  | idle | noProgress | unrepresentable | busy => exact absurd he id
  | applied haccepts A =>
    refine .inr ⟨q, w, by simp [Event.isDecision], ?_, rfl⟩
    rw [A.config]
    exact hw
  | rejected => exact .inr ⟨q, w, by simp [Event.isDecision], hw, rfl⟩
  | aborted => exact absurd rfl hlive

/-- **The waiting bound.** A request at position `p` of the queue is planned in one of the next
`p + 1` plans, if each of them admits a waiting request and none of the decisions preempts. -/
theorem EngineConfig.waiting_bound (config : EngineConfig) {log log' : List Event}
    {st st' : EngineState} (h : Run Step config.initial log st) (h' : Run CalmStep st log' st')
    (hprompts : ∀ e ∈ log ++ log', e.Prompted) {p : ℕ} {w : Sequence}
    (hw : st.1.waiting[p]? = some w) (hadmits : ∀ e ∈ log', e.Admits)
    (hcount : p + 1 ≤ log'.countP Event.isDecision) : PlannedIn log' w.requestId := by
  -- before it is planned, the request moves to the front by at least one place with every plan
  have hinvariant : Run Step config.initial (log ++ log') st' ∧ (PlannedIn log' w.requestId ∨
      ∃ q w', q + log'.countP Event.isDecision ≤ p ∧ st'.1.waiting[q]? = some w' ∧
        w'.requestId = w.requestId) := by
    refine h'.invariant_of_forall (Q := fun e => e.Prompted ∧ e.Admits)
      (P := fun log₁ st₁ => Run Step config.initial (log ++ log₁) st₁ ∧
        (PlannedIn log₁ w.requestId ∨ ∃ q w', q + log₁.countP Event.isDecision ≤ p ∧
          st₁.1.waiting[q]? = some w' ∧ w'.requestId = w.requestId))
      (fun e he => ⟨hprompts e (List.mem_append_right _ he), hadmits e he⟩)
      ⟨by simpa using h, .inr ⟨p, w, by simp, hw, rfl⟩⟩ ?_
    rintro log₁ st₁ e st₂ hrun₁ hbefore ⟨hreached, hcase⟩ ⟨-, he⟩ hstep
    refine ⟨by rw [← List.append_assoc]; exact hreached.snoc hstep.step, ?_⟩
    rcases hcase with hplanned | ⟨q, w', hq, hw', hid⟩
    · exact .inl (hplanned.snoc e)
    · have hprompted : ∀ e ∈ log ++ log₁, e.Prompted := fun e he => by
        rcases List.mem_append.mp he with he | he
        · exact hprompts e (List.mem_append_left _ he)
        · exact (hbefore e he).1
      have hordered := EngineConfig.ordered_of_run hreached hprompted
      rcases hstep.moves (EngineConfig.inv_of_run hreached) hordered.waiting_pos he hw' with
        ⟨decision, plan, hmem, hentry⟩ | ⟨q', w'', hq', hw'', hid'⟩
      · exact .inl ⟨decision, plan, List.mem_append_right _ hmem, hid ▸ hentry⟩
      · refine .inr ⟨q', w'', ?_, hw'', hid'.trans hid⟩
        rw [List.countP_append]
        omega
  obtain ⟨-, hplanned | ⟨q, w', hq, -, -⟩⟩ := hinvariant
  · exact hplanned
  · omega

/-- A decision, its result and another decision. -/
def twoDecisions : List Action :=
  [.planStep, .applyStepResult ⟨0, [⟨0, 0, some 7⟩]⟩, .planStep]

omit [HashFunction] in
/-- The budget of three tokens is enough for the first request only, and the second one, which
waits behind it, is planned by the second decision. -/
theorem waiting_bound_twoRequests :
    letI := constantHash
    let st := (performAll (EngineConfig.plain 3 3 2).initial twoRequests).2
    st.1.waiting.map (·.requestId) = [0, 1] ∧ PlannedIn (performAll st twoDecisions).1 1 := by
  let _ := constantHash
  let config := EngineConfig.plain 3 3 2
  let st := (performAll config.initial twoRequests).2
  let planned := (Action.planStep.perform st).2
  let applied := ((Action.applyStepResult ⟨0, [⟨0, 0, some 7⟩]⟩).perform planned).2
  have hfirst : CalmStep st (Action.planStep.perform st).1 planned :=
    .perform (by simp) fun _ => by decide +kernel
  have happly : CalmStep planned
      ((Action.applyStepResult ⟨0, [⟨0, 0, some 7⟩]⟩).perform planned).1 applied :=
    .perform (by simp) fun h => absurd h (by decide +kernel)
  have hsecond : CalmStep applied (Action.planStep.perform applied).1
      (Action.planStep.perform applied).2 :=
    .perform (by simp) fun _ => by decide +kernel
  have hcalm : Run CalmStep st (performAll st twoDecisions).1 (performAll st twoDecisions).2 :=
    ((Run.single hfirst).snoc happly).snoc hsecond
  have hwaiting : (st.1.waiting[1]?).map (·.requestId) = some 1 := by decide +kernel
  obtain ⟨w, hw, hid⟩ := Option.map_eq_some_iff.mp hwaiting
  refine ⟨by decide +kernel, hid ▸ EngineConfig.waiting_bound config (run_performAll twoRequests _)
    hcalm (fun e he => ?_) hw (by decide +kernel) (by decide +kernel)⟩
  rcases List.mem_append.mp he with he | he
  · exact acceptsIf_performAll (P := fun prompt _ => prompt ≠ [])
      (fun _ _ h => (of_mem_twoRequests h).1) _ e he
  · exact acceptsIf_performAll (P := fun prompt _ => prompt ≠ [])
      (fun _ _ h => by simp [twoDecisions] at h) _ e he

/-! ### A request that is overtaken -/

/-- Two requests with the same prompt of one block are prefilled, and a third one waits. -/
def sharedPrompts : List Action :=
  [.addRequest (List.replicate 256 1) (.limited 4), .addRequest (List.replicate 256 1) (.limited 4),
    .addRequest [2] (.limited 1), .planStep,
    .applyStepResult ⟨0, [⟨0, 0, some 7⟩, ⟨1, 1, some 7⟩]⟩]

omit [HashFunction] in
theorem prompt_sharedPrompts {promptTokenIds : List Token} {params : SamplingParams}
    (h : .addRequest promptTokenIds params ∈ sharedPrompts) : promptTokenIds ≠ [] := by
  simp only [sharedPrompts, List.mem_cons, Action.addRequest.injEq, List.not_mem_nil,
    or_false, reduceCtorEq] at h
  rcases h with ⟨rfl, -⟩ | ⟨rfl, -⟩ | ⟨rfl, -⟩ <;> exact List.cons_ne_nil _ _

omit [HashFunction] in
/-- In a pool of three blocks the second request is preempted and admitted again through the cached
block of the first one, and the request that waited at the head of the queue is not planned. -/
theorem preempted_overtakes :
    letI := constantHash
    ∃ (config : EngineConfig) (log : List Event) (st st' : EngineState) (decision : Decision)
      (plan : StepPlan) (w : Sequence), Run Step config.initial log st ∧
      (∀ e ∈ log, e.Prompted) ∧ st.1.waiting[0]? = some w ∧
      Step st (.planned decision (some plan)) st' ∧ decision.admitted ≠ [] ∧
      ¬ PlannedIn [.planned decision (some plan)] w.requestId := by
  let _ := constantHash
  let config := EngineConfig.plain 3 1024 2
  let st := (performAll config.initial sharedPrompts).2
  have hwaiting : st.1.waiting.map (·.requestId) = [2] := by decide +kernel
  have hplanned : (plannedBy st).map (fun planned => (planned.1.sequences.map (·.requestId),
      (decision st planned.2).admitted)) = some ([0, 1], [(1, 256)]) := by
    decide +kernel
  obtain ⟨⟨plan, st'⟩, hplan, hvalues⟩ := Option.map_eq_some_iff.mp hplanned
  simp only [Prod.mk.injEq] at hvalues
  obtain ⟨w, hw, hid⟩ := List.map_eq_singleton_iff.mp hwaiting
  refine ⟨config, _, st, st', decision st st', plan, w, run_performAll sharedPrompts _,
    acceptsIf_performAll (fun _ _ => prompt_sharedPrompts) _, by simp [hw],
    .planStep (planStep_of_plannedBy hplan), by simp [hvalues.2], ?_⟩
  rintro ⟨_, _, hmem, entry, hentry, hrequest⟩
  cases List.mem_singleton.mp hmem
  have hmem : entry.requestId ∈ plan.sequences.map (·.requestId) := List.mem_map_of_mem hentry
  rw [hvalues.1, hrequest, hid] at hmem
  simp at hmem

end VllmOxide
