import VllmOxide.Machine.Soundness
import VllmOxide.System.Decoding
import VllmOxide.System.Rounds

/-!
# One step of the engine core

`EngineCore::step` plans, executes and applies. Whatever fails on the way, it drops all requests and
gives their blocks back before it returns the error. Executions may fail at any point and leave
anything in the slots of the plan; then the error is theirs. An execution that succeeds is always
applied.

## Main definitions

* `ExecutionOutcome`: what happens to the execution of a plan.
* `EngineError`: the error of a step, with the one of its cleanup if that fails as well.
* `EngineCore`, `EngineCore.cleanupFailedStep`, `EngineCore.stepInternal`: the step.
* `StepEffect`: what a step has done.

## Main results

* `EngineCore.stepInternal_effect`: what a step does between two steps.
-/

namespace VllmOxide

/-- What happens to the execution of a plan: it succeeds, or preparing its metadata, the forward
pass or sampling fails and leaves something in slots of the plan. -/
inductive ExecutionOutcome (V : Type)
  | succeeds
  | fails (message : String) (garbage : ℤ → Option V)

/-- What made a step fail. -/
inductive StepFailure
  | scheduler (error : StepPlanError)
  | execution (message : String)
deriving DecidableEq

/-- The error of a step: what made it fail, and why its cleanup failed if it did. -/
structure EngineError where
  failure : StepFailure
  cleanup : Option StepPlanError
deriving DecidableEq

/-- The engine core: the machine, and the number of requests that the network is bound to for the
generation call in progress. -/
structure EngineCore (V : Type) where
  machine : Machine V
  callSize : Option ℕ

/-- A fresh engine core. -/
def EngineCore.initial {V : Type} (config : EngineConfig) (memory : Memory V) : EngineCore V where
  machine := .initial config memory
  callSize := none

namespace EngineCore

variable {V : Type}

/-- `is_running`. -/
def isRunning (core : EngineCore V) : Bool :=
  core.machine.engine.1.isRunning

/-- The machine of an engine core with another state of the engine. -/
def withEngine (core : EngineCore V) (st : EngineState) : EngineCore V :=
  { core with machine := { core.machine with engine := st } }

/-- `cleanup_failed_step`: end the generation and abort all requests. -/
def cleanupFailedStep (failure : StepFailure) (core : EngineCore V) : EngineError × EngineCore V :=
  let core := { core with callSize := none }
  match Scheduler.abortAllRequests core.machine.engine with
  | .ok () st => (⟨failure, none⟩, core.withEngine st)
  | .error error st => (⟨failure, some error⟩, core.withEngine st)

/-- The result of a failed step. -/
def failedStep (failure : StepFailure) (core : EngineCore V) :
    Except EngineError (List RequestOutput) × EngineCore V :=
  let (error, core) := core.cleanupFailedStep failure
  (.error error, core)

variable [HashFunction]

/-- `step_internal`: plan, execute and apply, with the plan's execution as given. The generation ends
with its last request. -/
def stepInternal (model : CausalModel V) (execution : ExecutionOutcome V) (core : EngineCore V) :
    Except EngineError (List RequestOutput) × EngineCore V :=
  match Scheduler.planStep core.machine.engine with
  | .error error st => failedStep (.scheduler error) (core.withEngine st)
  | .ok none st => (.ok [], core.withEngine st)
  | .ok (some plan) st =>
    match execution with
    | .fails message garbage =>
      let garbage := fun slot =>
        if slot ∈ plan.attention.slotMapping then garbage slot else none
      let machine : Machine V :=
        { engine := st, memory := core.machine.memory.overwrite garbage, executed := none }
      failedStep (.execution message) { core with machine := machine }
    | .succeeds =>
      match model.executePlan plan core.machine.memory with
      | .error message =>
        let machine : Machine V :=
          { engine := st, memory := core.machine.memory, executed := none }
        failedStep (.execution message) { core with machine := machine }
      | .ok (result, memory) =>
        let machine : Machine V := { engine := st, memory := memory, executed := some result }
        let core := { core with machine := machine }
        match Scheduler.applyStepResult result st with
        | .ok outputs st =>
          let core := core.withEngine st
          (.ok outputs, { core with callSize := if core.isRunning then core.callSize else none })
        | .error error st => failedStep (.scheduler error) (core.withEngine st)

end EngineCore

/-! ### What a step does -/

section Effect

variable {V : Type}

/-- Nothing is left of the requests, and every block is free. -/
structure Cleared (m : Machine V) : Prop where
  running : m.engine.1.running = []
  waiting : m.engine.1.waiting = []
  inFlight : m.engine.1.inFlight = none
  nodup : m.engine.2.freeBlockIds.Nodup
  free : ∀ b < m.engine.2.blocks.length,
    (m.engine.2.blockAt b).refCount = 0 ∧ b ∈ m.engine.2.freeBlockIds

theorem Cleared.drained {m : Machine V} (h : Cleared m) : m.engine.1.isRunning = false := by
  simp [Scheduler.isRunning, h.running, h.waiting]

variable [HashFunction]

/-- Aborting clears the engine. -/
theorem cleared_of_inv {m : Machine V} (I : Inv m.engine.1 m.engine.2)
    (hrunning : m.engine.1.running = []) (hwaiting : m.engine.1.waiting = [])
    (hinFlight : m.engine.1.inFlight = none) : Cleared m := by
  have L := I.core.pool.ledger
  have hown : ∀ b, holders (tables m.engine.1.holders) b = 0 := by
    rw [Scheduler.holders, hrunning]
    exact fun _ => rfl
  exact ⟨hrunning, hwaiting, hinFlight, L.nodup_free, fun b hb =>
    ⟨(L.refCount b).trans (hown b), (L.mem_free b).mpr ⟨hb, hown b⟩⟩⟩

/-- What a step has done: there was nothing to do, it made a round, or it failed for a reason that it
reports, has cleared the engine and has ended the generation. -/
inductive StepEffect (execution : ExecutionOutcome V) (core : EngineCore V) :
    Except EngineError (List RequestOutput) × EngineCore V → Prop
  | idle {core' : EngineCore V} (hdrained : core'.isRunning = false)
      (hinFlight : core'.machine.engine.1.inFlight = none)
      (hplan : ∃ st, Scheduler.planStep core.machine.engine = .ok none st)
      (hcallSize : core'.callSize = core.callSize) : StepEffect execution core (.ok [], core')
  | applied {core' : EngineCore V} {outputs : List RequestOutput}
      (hsucceeds : execution = .succeeds)
      (hround : Round core.machine.engine core'.machine.engine)
      (hanswers : (outputs.map (·.requestId) ++
        core'.machine.engine.1.requests.map (·.requestId)).Perm
          (core.machine.engine.1.requests.map (·.requestId)))
      (hcallSize : core'.callSize = if core'.isRunning then core.callSize else none) :
      StepEffect execution core (.ok outputs, core')
  | unplanned {core' : EngineCore V} {error : StepPlanError}
      (hplan : ∃ st, Scheduler.planStep core.machine.engine = .error error st)
      (hcleared : Cleared core'.machine) (hcallSize : core'.callSize = none) :
      StepEffect execution core (.error ⟨.scheduler error, none⟩, core')
  | failed {core' : EngineCore V} {message : String} {garbage : ℤ → Option V}
      (hfails : execution = .fails message garbage) (hcleared : Cleared core'.machine)
      (hcallSize : core'.callSize = none)
      (hplan : ∃ plan st, Scheduler.planStep core.machine.engine = .ok (some plan) st) :
      StepEffect execution core (.error ⟨.execution message, none⟩, core')

omit [HashFunction] in
/-- The result of executing the plan in flight is acceptable. -/
theorem accepts_resultFor (model : CausalModel V) {st : EngineState} {plan : StepPlan}
    (hinFlight : st.1.inFlight = some plan) :
    Accepts st.1 (resultFor model plan.id st.1.running) := by
  refine ⟨plan, hinFlight, rfl, ?_⟩
  rw [resultFor, List.forall₂_map_right_iff, List.forall₂_same]
  intro seq hseq
  refine ⟨rfl, rfl, ?_⟩
  rw [Sequence.resultOf]
  cases seq.endsHistory <;> rfl

/-- A failed step is an abort. -/
theorem failedStep_effect {model : CausalModel V} {config : EngineConfig} {memory : Memory V}
    {log : List Operation} (core : EngineCore V)
    (h : Run (MachineStep model) (.initial config memory) log core.machine)
    (failure : StepFailure) :
    ∃ core', core.failedStep failure = (.error ⟨failure, none⟩, core') ∧
      Cleared core'.machine ∧ core'.callSize = none ∧
      Run (MachineStep model) (.initial config memory) (log ++ [.call .aborted]) core'.machine := by
  have I := EngineConfig.inv_of_run (run_of_machine h)
  obtain ⟨kv', hrun, I', -⟩ := I.abortAllRequests
  refine ⟨{ core.withEngine ({ core.machine.engine.1 with
    running := [], waiting := [], inFlight := none }, kv') with callSize := none }, ?_, ?_, rfl, ?_⟩
  · simp only [EngineCore.failedStep, EngineCore.cleanupFailedStep, hrun]
    rfl
  · exact cleared_of_inv I' rfl rfl rfl
  · exact h.snoc (.call (.abortAllRequests hrun) rfl)

/-- The operations of a step: a result is applied as it was executed, and no request is accepted. -/
structure Internal (log : List Operation) : Prop where
  unchanged : ∀ o ∈ log, o.Unchanged
  accepts : ∀ e ∈ engineLog log, ∀ P, e.AcceptsIf P

omit [HashFunction] in
theorem Internal.acceptsIf {log : List Operation} (h : Internal log) {o : Operation} (ho : o ∈ log)
    {e : Event} (he : e ∈ o.events) (P : List Token → SamplingParams → Prop) : e.AcceptsIf P :=
  h.accepts e (List.mem_flatMap.mpr ⟨o, ho, he⟩) P

/-- **Steps are runs.** A step from a reachable state without a plan in flight is a run of the
machine and has one of the effects; the outputs in its log are the ones it returns. -/
theorem stepInternal_effect {model : CausalModel V} {config : EngineConfig} {memory : Memory V}
    {log : List Operation} {core : EngineCore V}
    (h : Run (MachineStep model) (.initial config memory) log core.machine)
    (hinFlight : core.machine.engine.1.inFlight = none) (execution : ExecutionOutcome V) :
    StepEffect execution core (core.stepInternal model execution) ∧
      ∃ log', Run (MachineStep model) (.initial config memory) (log ++ log')
          (core.stepInternal model execution).2.machine ∧ Internal log' ∧
        ∀ outputs, (core.stepInternal model execution).1 = .ok outputs →
          outputsOf (engineLog log') = outputs := by
  have I := EngineConfig.inv_of_run (run_of_machine h)
  cases hplan : Scheduler.planStep core.machine.engine with
  | error error st =>
    have hrun := h.snoc (.call (.planStepFails hplan) rfl)
    obtain ⟨core', hfailed, hcleared, hcallSize, hrun'⟩ :=
      failedStep_effect (core.withEngine st) hrun (.scheduler error)
    have heq : core.stepInternal model execution = (.error ⟨.scheduler error, none⟩, core') := by
      simp only [EngineCore.stepInternal, hplan, hfailed]
    rw [heq]
    refine ⟨.unplanned ⟨st, hplan⟩ hcleared hcallSize,
      [.call (.planFailed (decision core.machine.engine st) error), .call .aborted],
      by simpa using hrun', ⟨by simp [Operation.Unchanged], ?_⟩, by simp⟩
    simp [engineLog, Operation.events, Event.AcceptsIf]
  | ok plan st =>
    have hstep := Step.planStep hplan
    have heffect := hstep.effect I
    cases plan with
    | none =>
      have heq : core.stepInternal model execution = (.ok [], core.withEngine st) := by
        simp only [EngineCore.stepInternal, hplan]
      rw [heq]
      refine ⟨?_, [.call (.planned (decision core.machine.engine st) none)],
        h.snoc (.call hstep rfl),
        ⟨by simp [Operation.Unchanged], by simp [engineLog, Operation.events, Event.AcceptsIf]⟩,
        by simp [engineLog, Operation.events, outputsOf]⟩
      generalize decision core.machine.engine st = d at heffect
      have hidle : ∃ st', Scheduler.planStep core.machine.engine = .ok none st' := ⟨st, hplan⟩
      cases heffect with
      | idle _ S hnone hlive =>
        exact .idle hlive ((congrArg Scheduler.inFlight S.config).trans hinFlight) hidle rfl
    | some plan =>
      have hrun := h.snoc (.call hstep rfl)
      obtain ⟨I', hinFlight', hlive, -⟩ := I.of_planStep hplan
      cases execution with
      | fails message garbage =>
        have hfail := hrun.snoc (.fail
          (fun slot => if slot ∈ plan.attention.slotMapping then garbage slot else none) hinFlight'
            fun slot hslot => by
              by_contra hmem
              exact hslot (if_neg hmem))
        obtain ⟨core', hfailed, hcleared, hcallSize, hrun'⟩ :=
          failedStep_effect { core with machine := _ } hfail (.execution message)
        have heq : core.stepInternal model (.fails message garbage) =
            (.error ⟨.execution message, none⟩, core') := by
          simp only [EngineCore.stepInternal, hplan]
          exact hfailed
        rw [heq]
        refine ⟨.failed rfl hcleared hcallSize ⟨plan, st, hplan⟩,
          [.call (.planned (decision core.machine.engine st) (some plan)), .failed, .call .aborted],
          by simpa using hrun', ⟨by simp [Operation.Unchanged], ?_⟩, by simp⟩
        simp [engineLog, Operation.events, Event.AcceptsIf]
      | succeeds =>
        obtain ⟨memory, hexecute, -⟩ := (sound_of_run hrun).executePlan I' hinFlight'
        have hexecuted := hrun.snoc (.execute hinFlight' hexecute)
        obtain ⟨all, s', kv', hrun', A⟩ := I'.applyStepResult
          (accepts_resultFor model hinFlight')
        have happly := hexecuted.snoc (.apply (.applyStepResult hrun') rfl rfl rfl)
        have heq : core.stepInternal model .succeeds =
            (.ok ((all.filter Sequence.isFinished).map Sequence.output),
              ⟨⟨(s', kv'), memory, some (resultFor model plan.id st.1.running)⟩,
                if s'.isRunning then core.callSize else none⟩) := by
          simp only [EngineCore.stepInternal, hplan, hexecute, hrun']
          rfl
        rw [heq]
        refine ⟨.applied rfl ⟨plan, st, _, _, hplan, hrun'⟩ ?_ rfl,
          [.call (.planned (decision core.machine.engine st) (some plan)),
            .executed (resultFor model plan.id st.1.running),
            .applied (resultFor model plan.id st.1.running)
              (.applied (resultFor model plan.id st.1.running)
                ((all.filter Sequence.isFinished).map Sequence.output))],
          by simpa using happly, ⟨?_, ?_⟩, ?_⟩
        · rw [A.config]
          exact (perm_of_stepped A.stepped).trans (hlive.map _)
        · simp [Operation.Unchanged, Event.result]
        · simp [engineLog, Operation.events, Event.AcceptsIf]
        · intro outputs houtputs
          cases houtputs
          simp [engineLog, Operation.events, outputsOf]

end Effect

end VllmOxide
