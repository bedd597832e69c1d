import VllmOxide.Library.Run
import VllmOxide.Scheduling.Transitions

/-!
# The engine as a transition system

The state of the engine is a scheduler together with the block pool. A step is one call of
`addRequest`, `planStep`, `applyStepResult` or `abortAllRequests`, with any arguments and any
outcome; its label is what a caller and an observer of the queues can see of it.

## Main definitions

* `EngineConfig`, `EngineConfig.initial`: a fresh scheduler and a fresh pool.
* `Event`, `Step`: the labels and the steps.
* `Action`, `performAll`: the calls as functions.
* `Decision`: what a call of `planStep` did to the running queue.
* `Effect`: the ways in which a step changes a state with the invariant.

## Main results

* `Step.effect`: what a step has done, in terms of the results of the operations.
* `EngineConfig.inv_of_run`: the invariant holds in every reachable state.
-/

namespace VllmOxide

/-- A scheduler and the pool it schedules for. -/
abbrev EngineState := Scheduler × BlockPool

/-- The parameters of an engine. -/
structure EngineConfig where
  numBlocks : Usize
  prefixCacheEnabled : Bool
  maxNumBatchedTokens : Usize
  maxNumSeqs : Usize
  eosTokenIds : List Token

/-- A fresh scheduler and a fresh pool. -/
def EngineConfig.initial (config : EngineConfig) : EngineState :=
  (Scheduler.newWithEosTokenIds config.maxNumBatchedTokens config.maxNumSeqs config.eosTokenIds,
    BlockPool.newInner config.numBlocks.val BLOCK_SIZE config.prefixCacheEnabled)

/-- What a call of `planStep` did to the running queue: the ids it preempted, and the ids it
admitted with the length of their cached prefix. -/
structure Decision where
  preempted : List ℕ
  admitted : List (ℕ × ℕ)

/-- What can be seen of a step. -/
inductive Event
  | accepted (requestId : ℕ) (promptTokenIds : List Token) (params : SamplingParams)
  | planned (decision : Decision) (plan : Option StepPlan)
  | planFailed (decision : Decision) (error : StepPlanError)
  | applied (result : StepResult) (outputs : List RequestOutput)
  | rejected (result : StepResult) (error : StepPlanError)
  | aborted
  | abortFailed (error : StepPlanError)

/-- A request is accepted only if its prompt and parameters satisfy a condition. -/
def Event.AcceptsIf (P : List Token → SamplingParams → Prop) : Event → Prop
  | .accepted _ promptTokenIds params => P promptTokenIds params
  | _ => True

variable [HashFunction]

/-- The number of running sequences that a call of `planStep` leaves running. -/
def survivors (before : EngineState) : ℕ :=
  if before.1.inFlight.isSome then before.1.running.length
  else
    match Scheduler.preemptIfNeeded before with
    | .ok _ (s, _) => s.running.length
    | .error _ (s, _) => s.running.length

/-- The decision of a call of `planStep`: what it did not leave running is preempted, and what
runs afterwards beyond that is admitted. -/
def decision (before after : EngineState) : Decision where
  preempted := (before.1.running.drop (survivors before)).map (·.seqId)
  admitted := (after.1.running.drop (survivors before)).map fun seq =>
    (seq.seqId, seq.numCachedTokens)

/-- The steps of the engine. -/
inductive Step : EngineState → Event → EngineState → Prop
  | addRequest (s : Scheduler) (kv : BlockPool) (promptTokenIds : List Token)
      (params : SamplingParams) :
      Step (s, kv)
        (.accepted (s.addRequest promptTokenIds params).1 promptTokenIds params)
        ((s.addRequest promptTokenIds params).2, kv)
  | planStep {st st' : EngineState} {plan : Option StepPlan}
      (h : Scheduler.planStep st = .ok plan st') :
      Step st (.planned (decision st st') plan) st'
  | planStepFails {st st' : EngineState} {error : StepPlanError}
      (h : Scheduler.planStep st = .error error st') :
      Step st (.planFailed (decision st st') error) st'
  | applyStepResult {st st' : EngineState} {result : StepResult} {outputs : List RequestOutput}
      (h : Scheduler.applyStepResult result st = .ok outputs st') :
      Step st (.applied result outputs) st'
  | applyStepResultFails {st st' : EngineState} {result : StepResult} {error : StepPlanError}
      (h : Scheduler.applyStepResult result st = .error error st') :
      Step st (.rejected result error) st'
  | abortAllRequests {st st' : EngineState} (h : Scheduler.abortAllRequests st = .ok () st') :
      Step st .aborted st'
  | abortAllRequestsFails {st st' : EngineState} {error : StepPlanError}
      (h : Scheduler.abortAllRequests st = .error error st') :
      Step st (.abortFailed error) st'

/-! ### Performing calls -/

/-- A call of the engine. -/
inductive Action
  | addRequest (promptTokenIds : List Token) (params : SamplingParams)
  | planStep
  | applyStepResult (result : StepResult)
  | abortAllRequests

/-- Make a call. -/
def Action.perform (st : EngineState) : Action → Event × EngineState
  | addRequest promptTokenIds params =>
    (.accepted (st.1.addRequest promptTokenIds params).1 promptTokenIds params,
      ((st.1.addRequest promptTokenIds params).2, st.2))
  | planStep =>
    match Scheduler.planStep st with
    | .ok plan st' => (.planned (decision st st') plan, st')
    | .error error st' => (.planFailed (decision st st') error, st')
  | applyStepResult result =>
    match Scheduler.applyStepResult result st with
    | .ok outputs st' => (.applied result outputs, st')
    | .error error st' => (.rejected result error, st')
  | abortAllRequests =>
    match Scheduler.abortAllRequests st with
    | .ok _ st' => (.aborted, st')
    | .error error st' => (.abortFailed error, st')

/-- A hash function without any information: all blocks collide. -/
@[reducible] def constantHash : HashFunction where
  computeHash _ _ := 0

/-- A `usize` value, cut off at the largest one. -/
def Usize.clamp (n : ℕ) : Usize :=
  ⟨min n USIZE_MAX, Nat.min_le_right _ _⟩

/-- An engine with a prefix cache and without EOS tokens. -/
def EngineConfig.plain (numBlocks maxNumBatchedTokens maxNumSeqs : ℕ) : EngineConfig where
  numBlocks := .clamp numBlocks
  prefixCacheEnabled := true
  maxNumBatchedTokens := .clamp maxNumBatchedTokens
  maxNumSeqs := .clamp maxNumSeqs
  eosTokenIds := []

/-- Parameters with a limit for the completion. -/
def SamplingParams.limited (maxTokens : ℕ) : SamplingParams :=
  { SamplingParams.default with maxTokens := maxTokens }

/-- Two requests with short prompts. -/
def twoRequests : List Action :=
  [.addRequest [1, 2, 3] (.limited 2), .addRequest [4, 5] (.limited 1)]

omit [HashFunction] in
theorem of_mem_twoRequests {promptTokenIds : List Token} {params : SamplingParams}
    (h : .addRequest promptTokenIds params ∈ twoRequests) :
    promptTokenIds ≠ [] ∧ promptTokenIds.length + params.maxTokens ≤ 5 ∧ 1 ≤ params.maxTokens := by
  simp only [twoRequests, List.mem_cons, Action.addRequest.injEq, List.not_mem_nil, or_false] at h
  rcases h with ⟨rfl, rfl⟩ | ⟨rfl, rfl⟩ <;> simp [SamplingParams.limited]

/-- The plan that a call of `planStep` returns, with the state after it. -/
def plannedBy (st : EngineState) : Option (StepPlan × EngineState) :=
  match Scheduler.planStep st with
  | .ok (some plan) st' => some (plan, st')
  | _ => none

theorem planStep_of_plannedBy {st st' : EngineState} {plan : StepPlan}
    (h : plannedBy st = some (plan, st')) : Scheduler.planStep st = .ok (some plan) st' := by
  unfold plannedBy at h
  split at h
  · simp only [Option.some.injEq, Prod.mk.injEq] at h
    obtain ⟨rfl, rfl⟩ := h
    assumption
  · cases h

/-- Make calls one after the other. -/
def performAll : EngineState → List Action → List Event × EngineState
  | st, [] => ([], st)
  | st, action :: rest =>
    let (event, st) := action.perform st
    let (log, st) := performAll st rest
    (event :: log, st)

/-- Every call is a step. -/
theorem step_perform (st : EngineState) (action : Action) :
    Step st (action.perform st).1 (action.perform st).2 := by
  cases action with
  | addRequest prompt params => exact .addRequest st.1 st.2 prompt params
  | planStep =>
    simp only [Action.perform]
    split
    · exact .planStep ‹_›
    · exact .planStepFails ‹_›
  | applyStepResult result =>
    simp only [Action.perform]
    split
    · exact .applyStepResult ‹_›
    · exact .applyStepResultFails ‹_›
  | abortAllRequests =>
    simp only [Action.perform]
    split
    · exact .abortAllRequests ‹_›
    · exact .abortAllRequestsFails ‹_›

/-- Calls one after the other are a run. -/
theorem run_performAll (actions : List Action) :
    ∀ st : EngineState, Run Step st (performAll st actions).1 (performAll st actions).2 := by
  induction actions with
  | nil => exact fun _ => .nil
  | cons action rest ih =>
    intro st
    exact (Run.single (step_perform st action)).append (ih _)

/-- The events of calls that add requests only under a condition. -/
theorem acceptsIf_performAll {P : List Token → SamplingParams → Prop} {actions : List Action}
    (h : ∀ promptTokenIds params, .addRequest promptTokenIds params ∈ actions →
      P promptTokenIds params) :
    ∀ st : EngineState, ∀ e ∈ (performAll st actions).1, e.AcceptsIf P := by
  induction actions with
  | nil => simp [performAll]
  | cons action rest ih =>
    intro st e he
    rcases List.mem_cons.mp he with rfl | he
    · cases action with
      | addRequest prompt params => exact h prompt params List.mem_cons_self
      | planStep | applyStepResult | abortAllRequests =>
        dsimp only [Action.perform]
        split <;> exact trivial
    · exact ih (fun prompt params hmem => h prompt params (List.mem_cons_of_mem _ hmem)) _ e he

/-! ### What a step has done -/

theorem survivors_of_selected {s s' : Scheduler} {kv kv₁ kv' : BlockPool} {n : ℕ}
    {kept admitted : List Sequence} (hinFlight : s.inFlight = none)
    (S : Selected s kv n kv₁ kept admitted s' kv') : survivors (s, kv) = n := by
  simp only [survivors, hinFlight, Option.isSome_none, Bool.false_eq_true, if_false, S.preempts]
  rw [Scheduler.preemptTo_running, List.length_take, Nat.min_eq_left S.n_le]

/-- The decision of a selection. -/
def decisionOf (s : Scheduler) (n : ℕ) (admitted : List Sequence) : Decision where
  preempted := (s.running.drop n).map (·.seqId)
  admitted := admitted.map fun seq => (seq.seqId, seq.numCachedTokens)

/-- What a step from a state with the invariant has done. -/
inductive Effect (st : EngineState) : Event → EngineState → Prop
  | accepted (promptTokenIds : List Token) (params : SamplingParams) :
      Effect st (.accepted st.1.nextRequestId promptTokenIds params)
        ((st.1.addRequest promptTokenIds params).2, st.2)
  | planned {n : ℕ} {kv₁ kv' : BlockPool} {kept admitted : List Sequence} {s : Scheduler}
      {plan : StepPlan} (hinFlight : st.1.inFlight = none)
      (S : Selected st.1 st.2 n kv₁ kept admitted s kv')
      (hsequences : plan.sequences = plannedEntries kv' s.running) (hne : plan.sequences ≠ [])
      (hid : plan.id = s.nextPlanId)
      (hslots : plan.attention.slotMapping = plan.sequences.flatMap (·.cache.slotMapping))
      (hlengths : ∀ entry ∈ plan.sequences, entry.cache.kvLength < 4294967296)
      (hbudget : plan.tokenBudget = (plan.sequences.map (·.tokenBudget)).sum) :
      Effect st (.planned (decisionOf st.1 n admitted) (some plan))
        ({ s with nextPlanId := s.nextPlanId + 1, inFlight := some plan }, kv')
  | idle {n : ℕ} {kv₁ kv' : BlockPool} {kept admitted : List Sequence} {s : Scheduler}
      (hinFlight : st.1.inFlight = none) (S : Selected st.1 st.2 n kv₁ kept admitted s kv')
      (hnone : plannedEntries kv' s.running = []) (hlive : s.isRunning = false) :
      Effect st (.planned (decisionOf st.1 n admitted) none) (s, kv')
  | noProgress {n : ℕ} {kv₁ kv' : BlockPool} {kept admitted : List Sequence} {s : Scheduler}
      (hinFlight : st.1.inFlight = none) (S : Selected st.1 st.2 n kv₁ kept admitted s kv')
      (hnone : plannedEntries kv' s.running = []) (hlive : s.isRunning = true)
      (waiting running budget free : ℕ) (blocked : Option BlockedAdmission) :
      Effect st (.planFailed (decisionOf st.1 n admitted)
        (.noProgress waiting running budget free blocked)) (s, kv')
  | unrepresentable {n : ℕ} {kv₁ kv' : BlockPool} {kept admitted : List Sequence} {s : Scheduler}
      (hinFlight : st.1.inFlight = none) (S : Selected st.1 st.2 n kv₁ kept admitted s kv')
      (message : String) (h : ¬ Representable s kv') :
      Effect st (.planFailed (decisionOf st.1 n admitted) (.invalid message)) (s, kv')
  | busy {plan : StepPlan} (hinFlight : st.1.inFlight = some plan) :
      Effect st (.planFailed ⟨[], []⟩ (.planAlreadyInFlight plan.id)) st
  | applied {result : StepResult} {all : List Sequence} {s' : Scheduler} {kv' : BlockPool}
      (haccepts : Accepts st.1 result) (A : AppliesTo st.1 st.2 result all s' kv') :
      Effect st (.applied result ((all.filter Sequence.isFinished).map Sequence.output)) (s', kv')
  | rejected {result : StepResult} (error : StepPlanError) (hrejects : ¬ Accepts st.1 result) :
      Effect st (.rejected result error) st
  | aborted {kv' : BlockPool}
      (I : Inv { st.1 with running := [], waiting := [], inFlight := none } kv')
      (hsame : st.2.SameContent kv') :
      Effect st .aborted ({ st.1 with running := [], waiting := [], inFlight := none }, kv')

/-- Every step has one of the effects. -/
theorem Step.effect {st st' : EngineState} {e : Event} (h : Step st e st')
    (I : Inv st.1 st.2) : Effect st e st' := by
  have hplan : st.1.inFlight = none → ∃ n kv₁ kept admitted s kv',
      Selected st.1 st.2 n kv₁ kept admitted s kv' ∧ survivors st = n ∧
        s.running = kept ++ admitted ∧ kept.length = n ∧
        Planned s kv' (Scheduler.planStep st) := fun hinFlight => by
    obtain ⟨n, kv₁, kept, admitted, s, kv', S, P⟩ := I.core.planStep hinFlight
    exact ⟨n, kv₁, kept, admitted, s, kv', S, survivors_of_selected hinFlight S, S.running,
      S.length_kept, P⟩
  -- the observed decision is the one of the selection
  have hdecision : ∀ {n : ℕ} {kept admitted : List Sequence} (after : EngineState),
      survivors st = n → after.1.running = kept ++ admitted → kept.length = n →
      decision st after = decisionOf st.1 n admitted := by
    intro n kept admitted after hn hrunning hlen
    rw [decision, decisionOf, hn, hrunning, ← hlen, List.drop_left]
  cases h with
  | addRequest s kv prompt params => exact .accepted prompt params
  | planStep h =>
    cases hinFlight : st.1.inFlight with
    | some plan =>
      rw [planStep_of_inFlight hinFlight] at h
      cases h
    | none =>
      obtain ⟨n, kv₁, kept, admitted, s, kv', S, hn, hrunning, hlen, P⟩ := hplan hinFlight
      rw [h] at P
      cases P with
      | idle hnone hlive =>
        rw [hdecision _ hn hrunning hlen]
        exact .idle hinFlight S hnone hlive
      | planned plan hsequences hne hid hslots hlengths hbudget =>
        rw [hdecision ({ s with
          nextPlanId := s.nextPlanId + 1
          inFlight := some plan }, kv') hn hrunning hlen]
        exact .planned hinFlight S hsequences hne hid hslots hlengths hbudget
  | planStepFails h =>
    cases hinFlight : st.1.inFlight with
    | some plan =>
      rw [planStep_of_inFlight hinFlight] at h
      cases h
      have hbusy : decision st st = ⟨[], []⟩ := by
        simp [decision, survivors, hinFlight]
      rw [hbusy]
      exact .busy hinFlight
    | none =>
      obtain ⟨n, kv₁, kept, admitted, s, kv', S, hn, hrunning, hlen, P⟩ := hplan hinFlight
      rw [h] at P
      cases P with
      | noProgress hnone hlive =>
        rw [hdecision _ hn hrunning hlen]
        exact .noProgress hinFlight S hnone hlive _ _ _ _ _
      | unrepresentable _ hlarge =>
        rw [hdecision _ hn hrunning hlen]
        exact .unrepresentable hinFlight S _ hlarge
  | @applyStepResult _ _ result outputs h =>
    by_cases haccepts : Accepts st.1 result
    · obtain ⟨all, s', kv', hrun, A⟩ := I.applyStepResult haccepts
      rw [hrun] at h
      cases h
      exact .applied haccepts A
    · obtain ⟨error, hrun⟩ := I.applyStepResult_error haccepts
      rw [hrun] at h
      cases h
  | @applyStepResultFails _ _ result error h =>
    by_cases haccepts : Accepts st.1 result
    · obtain ⟨all, s', kv', hrun, A⟩ := I.applyStepResult haccepts
      rw [hrun] at h
      cases h
    · obtain ⟨error, hrun⟩ := I.applyStepResult_error haccepts
      rw [hrun] at h
      cases h
      exact .rejected _ haccepts
  | abortAllRequests h =>
    obtain ⟨kv', hrun, I', hsame⟩ := I.abortAllRequests
    rw [hrun] at h
    cases h
    exact .aborted I' hsame
  | abortAllRequestsFails h =>
    obtain ⟨kv', hrun, -⟩ := I.abortAllRequests
    rw [hrun] at h
    cases h

/-- The state after a call of `planStep`, with a plan, without one or with an error. -/
def PlansTo (st st' : EngineState) : Prop :=
  (∃ plan, Scheduler.planStep st = .ok plan st') ∨
    ∃ error, Scheduler.planStep st = .error error st'

/-- A call of `planStep` takes one decision, unless a plan is in flight. -/
theorem PlansTo.selected {st st' : EngineState} (h : PlansTo st st') (I : Inv st.1 st.2) :
    st' = st ∨ ∃ n kv₁ kept admitted s, Selected st.1 st.2 n kv₁ kept admitted s st'.2 ∧
      st'.1 = { s with nextPlanId := st'.1.nextPlanId, inFlight := st'.1.inFlight } := by
  cases hinFlight : st.1.inFlight with
  | some plan =>
    rcases h with ⟨_, h⟩ | ⟨_, h⟩ <;> rw [planStep_of_inFlight hinFlight] at h <;> cases h
    exact .inl rfl
  | none =>
    obtain ⟨n, kv₁, kept, admitted, s, kv', S, P⟩ := I.core.planStep hinFlight
    refine .inr ⟨n, kv₁, kept, admitted, s, ?_⟩
    rcases h with ⟨_, h⟩ | ⟨_, h⟩ <;> rw [h] at P <;> cases P <;> exact ⟨S, rfl⟩

/-! ### The invariant of reachable states -/

/-- Every step keeps the invariant. -/
theorem Effect.inv {st st' : EngineState} {e : Event} (h : Effect st e st')
    (I : Inv st.1 st.2) : Inv st'.1 st'.2 := by
  have hinFlight : ∀ {n : ℕ} {kv₁ kv' : BlockPool} {kept admitted : List Sequence} {s : Scheduler},
      st.1.inFlight = none → Selected st.1 st.2 n kv₁ kept admitted s kv' → s.inFlight = none :=
    fun h S => by rw [S.config]; exact h
  cases h with
  | accepted prompt params => exact I.addRequest prompt params
  | planned h S hsequences hne hid hslots hlengths hbudget =>
    exact (Planned.inv S.core S.work (hinFlight h S)
      (.planned _ hsequences hne hid hslots hlengths hbudget) _ _ (.inl ⟨_, rfl⟩)).1
  | idle h S | noProgress h S | unrepresentable h S => exact S.core.inv (hinFlight h S)
  | busy | rejected => exact I
  | applied _ A => exact A.inv
  | aborted I' => exact I'

/-- A fresh engine satisfies the invariant. -/
theorem EngineConfig.inv_initial (config : EngineConfig) :
    Inv config.initial.1 config.initial.2 :=
  Inv.initial config.numBlocks.property _ _ _ _

/-- **The invariant of reachable states.** -/
theorem EngineConfig.inv_of_run {config : EngineConfig} {log : List Event} {st : EngineState}
    (h : Run Step config.initial log st) : Inv st.1 st.2 :=
  h.invariant (P := fun _ st => Inv st.1 st.2) config.inv_initial
    fun _ _ _ _ _ I hstep => (hstep.effect I).inv I

/-- What the state and the log of a run satisfy together, when every step keeps it. -/
theorem EngineConfig.invariant {config : EngineConfig} {log : List Event} {st : EngineState}
    {P : List Event → EngineState → Prop} (h : Run Step config.initial log st)
    (hstart : P [] config.initial)
    (hkeep : ∀ log st e st', Run Step config.initial log st → P log st → Effect st e st' →
      P (log ++ [e]) st') : P log st :=
  h.invariant hstart fun _ _ _ _ hrun hP hstep =>
    hkeep _ _ _ _ hrun hP (hstep.effect (EngineConfig.inv_of_run hrun))

/-- The same for runs whose events all satisfy a condition. -/
theorem EngineConfig.invariant_of_forall {config : EngineConfig} {log : List Event}
    {st : EngineState} {Q : Event → Prop} {P : List Event → EngineState → Prop}
    (h : Run Step config.initial log st) (hlog : ∀ e ∈ log, Q e) (hstart : P [] config.initial)
    (hkeep : ∀ log st e st', Run Step config.initial log st → (∀ e ∈ log, Q e) → P log st → Q e →
      Effect st e st' → P (log ++ [e]) st') : P log st :=
  h.invariant_of_forall hlog hstart fun _ _ _ _ hrun hbefore hP hQ hstep =>
    hkeep _ _ _ _ hrun hbefore hP hQ (hstep.effect (EngineConfig.inv_of_run hrun))

/-! ### The configuration -/

/-- The state belongs to the configuration. -/
structure EngineConfig.Governs (config : EngineConfig) (st : EngineState) : Prop where
  maxNumBatchedTokens : st.1.maxNumBatchedTokens = config.maxNumBatchedTokens
  maxNumSeqs : st.1.maxNumSeqs = config.maxNumSeqs
  eosTokenIds : st.1.eosTokenIds = config.eosTokenIds
  length : st.2.blocks.length = config.numBlocks.val
  enabled : st.2.prefixCacheEnabled = config.prefixCacheEnabled

theorem EngineConfig.Governs.selected {config : EngineConfig} {st : EngineState} {n : ℕ}
    {kv₁ kv' : BlockPool} {kept admitted : List Sequence} {s : Scheduler}
    (h : config.Governs st) (S : Selected st.1 st.2 n kv₁ kept admitted s kv') :
    config.Governs (s, kv') where
  maxNumBatchedTokens := by rw [S.config]; exact h.maxNumBatchedTokens
  maxNumSeqs := by rw [S.config]; exact h.maxNumSeqs
  eosTokenIds := by rw [S.config]; exact h.eosTokenIds
  length := S.content.length.trans h.length
  enabled := S.content.enabled.trans h.enabled

/-- No step changes the configuration. -/
theorem Effect.governs {config : EngineConfig} {st st' : EngineState} {e : Event}
    (h : Effect st e st') (hgoverns : config.Governs st) : config.Governs st' := by
  cases h with
  | accepted =>
    exact ⟨hgoverns.maxNumBatchedTokens, hgoverns.maxNumSeqs, hgoverns.eosTokenIds,
      hgoverns.length, hgoverns.enabled⟩
  | planned _ S =>
    have h := hgoverns.selected S
    exact ⟨h.maxNumBatchedTokens, h.maxNumSeqs, h.eosTokenIds, h.length, h.enabled⟩
  | idle _ S | noProgress _ S | unrepresentable _ S => exact hgoverns.selected S
  | busy | rejected => exact hgoverns
  | applied _ A =>
    obtain ⟨kv₁, -, hsame, huntouched⟩ := A.pool
    rw [A.config]
    exact ⟨hgoverns.maxNumBatchedTokens, hgoverns.maxNumSeqs, hgoverns.eosTokenIds,
      (hsame.length.trans huntouched.length).trans hgoverns.length,
      (hsame.enabled.trans huntouched.enabled).trans hgoverns.enabled⟩
  | aborted _ hsame =>
    exact ⟨hgoverns.maxNumBatchedTokens, hgoverns.maxNumSeqs, hgoverns.eosTokenIds,
      hsame.length.trans hgoverns.length, hsame.enabled.trans hgoverns.enabled⟩

/-- The states of a run belong to the configuration it starts from. -/
theorem EngineConfig.governs_of_run {config : EngineConfig} {log : List Event} {st : EngineState}
    (h : Run Step config.initial log st) : config.Governs st :=
  EngineConfig.invariant (P := fun _ st => config.Governs st) h
    ⟨rfl, rfl, rfl, by simp [EngineConfig.initial, BlockPool.newInner], rfl⟩
    fun _ _ _ _ _ hgoverns heffect => heffect.governs hgoverns

/-! ### Live requests -/

omit [HashFunction] in
/-- A new request is the last one. -/
theorem Scheduler.requests_addRequest (s : Scheduler) (promptTokenIds : List Token)
    (params : SamplingParams) :
    (s.addRequest promptTokenIds params).2.requests = s.requests ++
      [(Sequence.new s.nextRequestId s.nextSeqId promptTokenIds params).request] := by
  simp [addRequest, requests]

/-- What holds of every new request and is kept when a request goes on after a step holds of
every live request. -/
theorem EngineConfig.forall_requests {config : EngineConfig} {log : List Event} {st : EngineState}
    {Q : Event → Prop} {P : Request → Prop} (h : Run Step config.initial log st)
    (hlog : ∀ e ∈ log, Q e)
    (hnew : ∀ requestId seqId promptTokenIds params,
      Q (.accepted requestId promptTokenIds params) →
      P (Sequence.new requestId seqId promptTokenIds params).request)
    (hstep : ∀ results seq seq', seq.RunningOk → seq.WorkOk → P seq.request →
      Stepped config.eosTokenIds results seq seq' → seq'.isFinished = false → P seq'.request) :
    ∀ r ∈ st.1.requests, P r := by
  refine EngineConfig.invariant_of_forall (P := fun _ st => ∀ r ∈ st.1.requests, P r) h hlog
    (by simp [EngineConfig.initial, Scheduler.newWithEosTokenIds, Scheduler.requests]) ?_
  intro _ st e st' hrun _ hall hQ heffect
  have I := EngineConfig.inv_of_run hrun
  have hgoverns := EngineConfig.governs_of_run hrun
  cases heffect with
  | accepted prompt params =>
    intro r hr
    rw [Scheduler.requests_addRequest] at hr
    rcases List.mem_append.mp hr with hr | hr
    · exact hall r hr
    · obtain rfl := List.mem_singleton.mp hr
      exact hnew _ _ _ _ hQ
  | planned _ S | idle _ S | noProgress _ S | unrepresentable _ S =>
    exact fun r hr => hall r (S.requests.mem_iff.mp hr)
  | busy | rejected => exact hall
  | applied haccepts A =>
    obtain ⟨plan, hplan, -⟩ := haccepts
    intro r hr
    obtain ⟨seq, hseq, rfl⟩ := List.mem_map.mp hr
    rw [A.config] at hseq
    rcases List.mem_append.mp hseq with hseq | hseq
    · obtain ⟨hmem, hfin⟩ := List.mem_filter.mp hseq
      obtain ⟨q, hq, hstepped⟩ := exists_of_forall₂ A.stepped hmem
      exact hstep _ q seq (I.core.running q hq) (I.work plan hplan q hq)
        (hall _ (List.mem_map_of_mem (List.mem_append_left _ hq)))
        (hgoverns.eosTokenIds ▸ hstepped) (by simpa using hfin)
    · exact hall _ (List.mem_map_of_mem (List.mem_append_right _ hseq))
  | aborted => simp [Scheduler.requests]

end VllmOxide
