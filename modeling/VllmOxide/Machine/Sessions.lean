import VllmOxide.GoldenCapture.ForcedCall
import VllmOxide.Machine.Calls
import VllmOxide.System.Completion

/-!
# Sessions on the engine core

A session is any interleaving of admissions and steps, with any prompts, parameters and pool. A step
fails when the planner fails or its execution fails, and only then; it reports that and drops every
request. Up to there each admitted request is live or has been answered, once, and the next failure is
the only thing that can drop it.

## Main definitions

* `CoreEvent`, `CoreStep`: the calls of a session and what they return.
* `Account`, `account`: the requests admitted and answered since the last failure.

## Main results

* `EngineConfig.acceptedIds_of_run`: request ids are given out in order, also across failures.
* `EngineConfig.session_accounted`: the account of a session.
-/

namespace VllmOxide

/-- What can be seen of a call of the engine core. -/
inductive CoreEvent (V : Type)
  | refused (message : String)
  | admitted (requestIds : List ℕ)
  | stepped (planned : Except StepPlanError (Option StepPlan)) (execution : ExecutionOutcome V)
      (result : Except EngineError (List RequestOutput))

/-- The request ids given out in a call. -/
def CoreEvent.admittedIds {V : Type} : CoreEvent V → List ℕ
  | .admitted requestIds => requestIds
  | _ => []

/-- The requests admitted and answered since the last failure. -/
structure Account where
  admitted : List ℕ
  answered : List ℕ

/-- The account after one more call: a failed step closes it. -/
def Account.record {V : Type} (a : Account) : CoreEvent V → Account
  | .refused _ => a
  | .admitted requestIds => { a with admitted := a.admitted ++ requestIds }
  | .stepped _ _ (.ok outputs) => { a with answered := a.answered ++ outputs.map (·.requestId) }
  | .stepped _ _ (.error _) => ⟨[], []⟩

/-- The account of a session. -/
def account {V : Type} (log : List (CoreEvent V)) : Account :=
  log.foldl Account.record ⟨[], []⟩

theorem account_snoc {V : Type} (log : List (CoreEvent V)) (e : CoreEvent V) :
    account (log ++ [e]) = (account log).record e := by
  rw [account, List.foldl_append]
  rfl

/-- A step returns the error of its planner, nothing without a plan, the error of an execution that
fails, and outputs otherwise: what has been executed is applied. No cleanup fails. -/
def CoreEvent.IsTruthful {V : Type} : CoreEvent V → Prop
  | .stepped (.error error) _ result => result = .error ⟨.scheduler error, none⟩
  | .stepped (.ok none) _ result => result = .ok []
  | .stepped (.ok (some _)) (.fails message _) result => result = .error ⟨.execution message, none⟩
  | .stepped (.ok (some _)) .succeeds result => ∃ outputs, result = .ok outputs
  | _ => True

section Sessions

variable {V : Type} [HashFunction]

/-- What the planner returns in a step. -/
def EngineCore.planned (core : EngineCore V) : Except StepPlanError (Option StepPlan) :=
  match Scheduler.planStep core.machine.engine with
  | .ok plan _ => .ok plan
  | .error error _ => .error error

/-- The calls of a session. -/
inductive CoreStep (model : CausalModel V) : EngineCore V → CoreEvent V → EngineCore V → Prop
  | refuse {core : EngineCore V} {requests : List (List Token × SamplingParams)} {message : String}
      (h : core.addRequests requests = .error message) : CoreStep model core (.refused message) core
  | addRequests {core core' : EngineCore V} {requests : List (List Token × SamplingParams)}
      {requestIds : List ℕ} (h : core.addRequests requests = .ok (requestIds, core')) :
      CoreStep model core (.admitted requestIds) core'
  | step (core : EngineCore V) (execution : ExecutionOutcome V) :
      CoreStep model core (.stepped core.planned execution (core.stepInternal model execution).1)
        (core.stepInternal model execution).2

/-! ### Request ids -/

/-- Request ids are given out in order, in every run. -/
theorem EngineConfig.acceptedIds_of_run {config : EngineConfig} {log : List Event}
    {st : EngineState} (h : Run Step config.initial log st) :
    acceptedIds log = List.range st.1.nextRequestId := by
  refine EngineConfig.invariant h (P := fun log st => acceptedIds log = List.range st.1.nextRequestId) rfl ?_
  intro log st e st' _ hlog heffect
  rw [acceptedIds_append, hlog]
  cases heffect with
  | accepted prompt params => exact List.range_succ.symm
  | planned _ S | idle _ S | noProgress _ S | unrepresentable _ S =>
    rw [S.config]
    exact List.append_nil _
  | busy | rejected | aborted => exact List.append_nil _
  | applied _ hto =>
    rw [hto.config]
    exact List.append_nil _

omit [HashFunction] in
/-- A step accepts no request. -/
theorem Internal.acceptedIds {log : List Operation} (h : Internal log) :
    acceptedIds (engineLog log) = [] := by
  refine List.flatMap_eq_nil_iff.mpr fun e he => ?_
  cases e with
  | accepted requestId prompt params => exact (h.accepts _ he fun _ _ => False).elim
  | _ => rfl

omit [HashFunction] in
theorem acceptedIds_acceptedEvents (requests : List (List Token × SamplingParams)) :
    ∀ first, acceptedIds (acceptedEvents first requests) = List.range' first requests.length := by
  induction requests with
  | nil => exact fun _ => rfl
  | cons request rest ih =>
    intro first
    rw [List.length_cons, List.range'_succ, ← ih]
    rfl

/-! ### One call -/

variable {config : EngineConfig} {model : CausalModel V} {memory : Memory V}

/-- A step that finds nothing to do finds no live request. -/
theorem isRunning_of_idle {st st' : EngineState} (I : Inv st.1 st.2)
    (h : Scheduler.planStep st = .ok none st') : st.1.isRunning = false := by
  have heffect := (Step.planStep h).effect I
  generalize decision st st' = d at heffect
  cases heffect with
  | idle _ S _ hdrained =>
    rw [← Bool.not_eq_true, Scheduler.isRunning_iff] at hdrained ⊢
    rw [not_not] at hdrained ⊢
    exact (hdrained ▸ S.requests).symm.eq_nil

/-- What holds between two calls of a session. -/
structure Accounted (config : EngineConfig) (model : CausalModel V) (memory : Memory V)
    (log : List (CoreEvent V)) (core : EngineCore V) : Prop where
  run : ∃ operations, Run (MachineStep model) (.initial config memory) operations core.machine ∧
    acceptedIds (engineLog operations) = log.flatMap CoreEvent.admittedIds
  inFlight : core.machine.engine.1.inFlight = none
  bound : core.callSize.isSome = core.isRunning
  answered : ((account log).answered ++
    core.machine.engine.1.requests.map (·.requestId)).Perm (account log).admitted
  sinceFailure : (account log).admitted <:+ log.flatMap CoreEvent.admittedIds
  truthful : ∀ e ∈ log, e.IsTruthful

namespace Accounted

variable {log : List (CoreEvent V)} {core : EngineCore V}

theorem inv (A : Accounted config model memory log core) :
    Inv core.machine.engine.1 core.machine.engine.2 := by
  obtain ⟨operations, hrun, -⟩ := A.run
  exact EngineConfig.inv_of_run (run_of_machine hrun)

theorem snoc_truthful (A : Accounted config model memory log core) {e : CoreEvent V}
    (he : e.IsTruthful) : ∀ e' ∈ log ++ [e], e'.IsTruthful := by
  intro e' he'
  rcases List.mem_append.mp he' with he' | he'
  · exact A.truthful e' he'
  · exact List.mem_singleton.mp he' ▸ he

theorem refuse (A : Accounted config model memory log core) (message : String) :
    Accounted config model memory (log ++ [.refused message]) core where
  run := by simpa [CoreEvent.admittedIds] using A.run
  inFlight := A.inFlight
  bound := A.bound
  answered := by
    rw [account_snoc]
    exact A.answered
  sinceFailure := by
    simpa [account_snoc, Account.record, CoreEvent.admittedIds] using A.sinceFailure
  truthful := A.snoc_truthful trivial

theorem addRequests (A : Accounted config model memory log core) {core' : EngineCore V}
    {requests : List (List Token × SamplingParams)} {requestIds : List ℕ}
    (h : core.addRequests requests = .ok (requestIds, core')) :
    Accounted config model memory (log ++ [.admitted requestIds]) core' := by
  set st := core.machine.engine with hst
  obtain ⟨⟨ids, st'⟩, hadd, h⟩ := exists_of_bind_ok h
  obtain ⟨rfl, rfl⟩ := Prod.mk.inj (Except.ok.inj h)
  obtain ⟨-, hadd⟩ := next_of_bind hadd
  obtain ⟨hne, hadd⟩ := next_of_bind hadd
  replace hne := not_of_bailIf_ok hne
  replace hadd := Except.ok.inj hadd
  obtain ⟨hids, new, hrequests, hnew, -⟩ := requests_addAll requests st
  rw [hadd] at hids hrequests hnew
  have hlive : st'.1.isRunning = true := by
    rw [Scheduler.isRunning_iff, hrequests]
    intro hnone
    obtain rfl := (List.append_eq_nil_iff.mp hnone).2
    have hlength := congrArg List.length hids
    rw [← hnew, List.length_range'] at hlength
    exact hne (List.eq_nil_of_length_eq_zero hlength.symm)
  obtain ⟨operations, hrun, hlog⟩ := A.run
  have hrun' := hrun.append (run_addAll_machine requests _)
  rw [← hst, hadd] at hrun'
  refine ⟨⟨_, hrun', ?_⟩, ?_, hlive.symm, ?_, ?_, A.snoc_truthful trivial⟩
  · rw [engineLog_append, acceptedIds_append, engineLog_map_call, acceptedIds_acceptedEvents, hlog,
      ← hids]
    simp [CoreEvent.admittedIds]
  · have hflight := inFlight_addAll requests st
    rw [hadd] at hflight
    exact hflight.trans A.inFlight
  · have hall := congrArg (List.map (·.requestId)) hrequests
    rw [List.map_append, hnew] at hall
    rw [account_snoc]
    refine (List.Perm.of_eq (congrArg _ hall)).trans ?_
    rw [← List.append_assoc]
    exact A.answered.append_right _
  · obtain ⟨before, hbefore⟩ := A.sinceFailure
    refine ⟨before, ?_⟩
    rw [account_snoc, List.flatMap_append, ← hbefore, List.append_assoc]
    simp [Account.record, CoreEvent.admittedIds]

theorem step (A : Accounted config model memory log core) (execution : ExecutionOutcome V) :
    Accounted config model memory
      (log ++ [.stepped core.planned execution (core.stepInternal model execution).1])
      (core.stepInternal model execution).2 := by
  obtain ⟨operations, hrun, hlog⟩ := A.run
  obtain ⟨heffect, operations', hrun', hinternal, -⟩ :=
    stepInternal_effect hrun A.inFlight execution
  have I := A.inv
  rcases hstep : core.stepInternal model execution with ⟨result, core'⟩
  rw [hstep] at heffect hrun'
  have I' : Inv core'.machine.engine.1 core'.machine.engine.2 :=
    EngineConfig.inv_of_run (run_of_machine hrun')
  have hrun₁ : ∃ operations, Run (MachineStep model) (.initial config memory) operations
      core'.machine ∧ acceptedIds (engineLog operations) =
        (log ++ [CoreEvent.stepped core.planned execution result]).flatMap
          CoreEvent.admittedIds := by
    refine ⟨_, hrun', ?_⟩
    rw [engineLog_append, acceptedIds_append, hinternal.acceptedIds, hlog]
    simp [CoreEvent.admittedIds]
  have hsuffix : ∀ {l : List ℕ}, l <:+ log.flatMap CoreEvent.admittedIds →
      l <:+ (log ++ [CoreEvent.stepped core.planned execution result]).flatMap
        CoreEvent.admittedIds := by
    intro l hl
    simpa [CoreEvent.admittedIds] using hl
  -- a failed step closes the account
  have hclosed : ∀ error, result = .error error → Cleared core'.machine → core'.callSize = none →
      CoreEvent.IsTruthful (.stepped core.planned execution result) →
      Accounted config model memory (log ++ [.stepped core.planned execution result]) core' := by
    rintro error rfl hcleared hcallSize htruthful
    refine ⟨hrun₁, hcleared.inFlight, ?_, ?_, ?_, A.snoc_truthful htruthful⟩
    · rw [hcallSize]
      exact hcleared.drained.symm
    · simp [account_snoc, Account.record, Scheduler.requests, hcleared.running, hcleared.waiting]
    · rw [account_snoc]
      exact List.nil_suffix
  cases heffect with
  | idle hdrained hinFlight hplan hcallSize =>
    obtain ⟨st, hplan⟩ := hplan
    have hplanned : core.planned = .ok none := by rw [EngineCore.planned, hplan]
    have hbefore : core.isRunning = false := isRunning_of_idle I hplan
    have hnone : ∀ {s : Scheduler}, s.isRunning = false → s.requests = [] := fun hs => by
      rwa [← Bool.not_eq_true, Scheduler.isRunning_iff, not_not] at hs
    refine ⟨hrun₁, hinFlight, ?_, ?_, ?_, A.snoc_truthful (by rw [hplanned]; rfl)⟩
    · rw [hcallSize, A.bound, hbefore, hdrained]
    · have hanswered := A.answered
      rw [hnone hbefore] at hanswered
      rw [account_snoc, hnone hdrained]
      simpa [Account.record] using hanswered
    · rw [account_snoc]
      exact hsuffix A.sinceFailure
  | @applied _ outputs hsucceeds hround hanswers hcallSize =>
    have htruthful : CoreEvent.IsTruthful (.stepped core.planned execution (.ok outputs)) := by
      obtain ⟨plan, st, -, -, hplan, -⟩ := hround
      rw [EngineCore.planned, hplan, hsucceeds]
      exact ⟨outputs, rfl⟩
    refine ⟨hrun₁, hround.inFlight I, ?_, ?_, ?_, A.snoc_truthful htruthful⟩
    · rw [hcallSize]
      cases hlive : core'.isRunning
      · rfl
      · have hbefore : core.isRunning = true := by
          rw [EngineCore.isRunning, Scheduler.isRunning_iff] at hlive ⊢
          intro hnone
          rw [hnone] at hanswers
          have hempty := (List.append_eq_nil_iff.mp hanswers.eq_nil).2
          exact hlive (List.map_eq_nil_iff.mp hempty)
        exact A.bound.trans hbefore
    · rw [account_snoc]
      show (((account log).answered ++ outputs.map (·.requestId)) ++ _).Perm _
      rw [List.append_assoc]
      exact (hanswers.append_left _).trans A.answered
    · rw [account_snoc]
      exact hsuffix A.sinceFailure
  | unplanned hplan hcleared hcallSize =>
    obtain ⟨st, hplan⟩ := hplan
    exact hclosed _ rfl hcleared hcallSize (by rw [EngineCore.planned, hplan]; rfl)
  | failed hfails hcleared hcallSize hplan =>
    obtain ⟨plan, st, hplan⟩ := hplan
    exact hclosed _ rfl hcleared hcallSize (by rw [EngineCore.planned, hplan, hfails]; rfl)

/-- Without a live request every block is free. -/
theorem cleared (A : Accounted config model memory log core) (hdrained : core.isRunning = false) :
    Cleared core.machine := by
  have hempty : core.machine.engine.1.running = [] ∧ core.machine.engine.1.waiting = [] := by
    simpa [EngineCore.isRunning, Scheduler.isRunning, and_comm] using hdrained
  exact cleared_of_inv A.inv hempty.1 hempty.2 A.inFlight

end Accounted

/-- What holds between two calls, in every session. -/
theorem accounted_of_run {log : List (CoreEvent V)} {core : EngineCore V}
    (h : Run (CoreStep model) (.initial config memory) log core) :
    Accounted config model memory log core := by
  refine h.invariant ⟨⟨[], .nil, rfl⟩, rfl, rfl, .refl _, List.nil_suffix, by simp⟩ ?_
  intro log core e core' _ A hstep
  cases hstep with
  | refuse => exact A.refuse _
  | addRequests h => exact A.addRequests h
  | step execution => exact A.step execution

/-- **Nothing is lost, answered twice or left behind.** In any session, with failures anywhere in it,
no request id is given out twice, and since the last failure each admitted request is live or has been
answered once. No plan is in flight between two calls; the network is bound to a call if and only if a
request is live, and without one every block is free. A step fails only with an error of the planner or
of its execution, a result that was executed is applied, and no cleanup fails. -/
theorem EngineConfig.session_accounted (config : EngineConfig) (model : CausalModel V)
    (memory : Memory V) {log : List (CoreEvent V)} {core : EngineCore V}
    (h : Run (CoreStep model) (.initial config memory) log core) :
    (log.flatMap CoreEvent.admittedIds).Nodup ∧
    (account log).admitted <:+ log.flatMap CoreEvent.admittedIds ∧
    ((account log).answered ++ core.machine.engine.1.requests.map (·.requestId)).Perm
      (account log).admitted ∧
    core.machine.engine.1.inFlight = none ∧ core.callSize.isSome = core.isRunning ∧
    (core.isRunning = false → Cleared core.machine) ∧ ∀ e ∈ log, e.IsTruthful := by
  have A := accounted_of_run h
  obtain ⟨operations, hrun, hids⟩ := A.run
  refine ⟨?_, A.sinceFailure, A.answered, A.inFlight, A.bound, A.cleared, A.truthful⟩
  rw [← hids, acceptedIds_of_run (run_of_machine hrun)]
  exact List.nodup_range

end Sessions

/-- The second request is answered in the first step; the execution of the next step fails, and the
first request is dropped. -/
theorem session_accounted_twoRequests :
    letI := constantHash
    ∃ (plan plan' : Except StepPlanError (Option StepPlan))
      (first second : Except EngineError (List RequestOutput)) (core : EngineCore Token),
      Run (CoreStep .fingerprint) (.initial (EngineConfig.plain 2 8 2) fun _ => 0)
        [.admitted [0, 1], .stepped plan .succeeds first,
          .stepped plan' (.fails "device lost" fun _ => some 9) second] core ∧
      first.toOption.map (·.map (·.requestId)) = some [1] ∧
      second.toOption = none ∧ Cleared core.machine := by
  let _ := constantHash
  let start : EngineCore Token := .initial (EngineConfig.plain 2 8 2) fun _ => 0
  let requests : List (List Token × SamplingParams) := [([1, 2, 3], .limited 2), ([4, 5], .limited 1)]
  let admitted : EngineCore Token :=
    { start.withEngine (addAll start.machine.engine requests).2 with callSize := some 2 }
  have hadmitted : start.addRequests requests = .ok ([0, 1], admitted) := rfl
  let once := admitted.stepInternal .fingerprint .succeeds
  let twice := once.2.stepInternal .fingerprint (.fails "device lost" fun _ => some 9)
  have hrun : Run (CoreStep .fingerprint) start _ twice.2 :=
    ((Run.single (.addRequests hadmitted)).snoc (.step admitted .succeeds)).snoc
      (.step once.2 (.fails "device lost" fun _ => some 9))
  have hdrained : twice.2.isRunning = false := by decide +kernel
  exact ⟨admitted.planned, once.2.planned, once.1, twice.1, twice.2, hrun, by decide +kernel,
    by decide +kernel, (EngineConfig.session_accounted _ _ _ hrun).2.2.2.2.2.1 hdrained⟩

end VllmOxide
