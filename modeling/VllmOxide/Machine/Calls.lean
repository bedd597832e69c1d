import VllmOxide.GoldenCapture.ForcedRun
import VllmOxide.Machine.Transparency
import VllmOxide.System.Termination

/-!
# Generation calls on the engine core

A generation call admits its requests and steps until none is live. An execution that fails ends
the call; without a failure the call ends because every step goes down the measure of the rounds.
Between two steps the network is bound to a call if and only if a request is live.

## Main definitions

* `EngineCore.addRequests`: admit one call.
* `generateLoop`: step until no request is live.
* `EngineConfig.Adequate`: bounds under which every request can be served.
* `Served`: what holds between two steps.

## Main results

* `Served.step`: one step, and why it fails if it does.
* `Served.generateLoop`: the loop returns.
-/

namespace VllmOxide

variable {V : Type}

/-! ### The loop -/

/-- `add_requests`: bind the network to a call and admit its requests. -/
def EngineCore.addRequests (core : EngineCore V) (requests : List (List Token × SamplingParams)) :
    Except String (List ℕ × EngineCore V) := do
  let (ids, st) ← VllmOxide.addRequests core.machine.engine requests
  return (ids, { core.withEngine st with callSize := some requests.length })

/-- The loop of `generate`: step until no request is live and collect the outputs. The executions
are given by the number of the step. -/
def generateLoop [HashFunction] (model : CausalModel V) (executions : ℕ → ExecutionOutcome V) :
    (fuel step : ℕ) → List RequestOutput → EngineCore V →
      Option (Except EngineError (List RequestOutput) × EngineCore V)
  | 0, _, _, _ => none
  | fuel + 1, step, completedOutputs, core =>
    if core.isRunning then
      match core.stepInternal model (executions step) with
      | (.error error, core) => some (.error error, core)
      | (.ok outputs, core) =>
        generateLoop model executions fuel (step + 1) (completedOutputs ++ outputs) core
    else some (.ok completedOutputs, core)

/-- The events of admitting some requests. -/
def acceptedEvents : (first : ℕ) → List (List Token × SamplingParams) → List Event
  | _, [] => []
  | first, request :: rest => .accepted first request.1 request.2 :: acceptedEvents (first + 1) rest

theorem mem_acceptedEvents {requests : List (List Token × SamplingParams)} :
    ∀ {first : ℕ} {e : Event}, e ∈ acceptedEvents first requests →
      ∃ i request, requests[i]? = some request ∧ e = .accepted (first + i) request.1 request.2 := by
  induction requests with
  | nil => intro _ _ h; cases h
  | cons request rest ih =>
    intro first e h
    rcases List.mem_cons.mp h with rfl | h
    · exact ⟨0, request, rfl, rfl⟩
    · obtain ⟨i, other, hi, rfl⟩ := ih h
      exact ⟨i + 1, other, hi, by rw [Nat.add_assoc, Nat.add_comm 1 i]⟩

variable [HashFunction] {model : CausalModel V}

/-- Admitting requests is a run of the machine. -/
theorem run_addAll_machine (requests : List (List Token × SamplingParams)) :
    ∀ m : Machine V, Run (MachineStep model) m
      ((acceptedEvents m.engine.1.nextRequestId requests).map Operation.call)
      { m with engine := (addAll m.engine requests).2 } := by
  induction requests with
  | nil => exact fun _ => .nil
  | cons request rest ih =>
    intro m
    have hfirst : MachineStep model m
        (.call (.accepted m.engine.1.nextRequestId request.1 request.2))
        { m with engine := ((m.engine.1.addRequest request.1 request.2).2, m.engine.2) } :=
      .call (.addRequest m.engine.1 m.engine.2 request.1 request.2) rfl
    exact (Run.single hfirst).append (ih _)

omit [HashFunction] in
/-- Admitting requests puts no plan in flight. -/
theorem inFlight_addAll (requests : List (List Token × SamplingParams)) :
    ∀ st : EngineState, (addAll st requests).2.1.inFlight = st.1.inFlight := by
  induction requests with
  | nil => exact fun _ => rfl
  | cons request rest ih => exact fun st => ih _

omit [HashFunction] in
theorem engineLog_map_call (events : List Event) : engineLog (events.map .call) = events := by
  induction events with
  | nil => rfl
  | cons e rest ih => exact congrArg (e :: ·) ih

/-! ### Between two steps -/

omit [HashFunction] in
/-- Bounds under which every request within the model length can be served: two tokens to a step,
one sequence, blocks for one sequence of the model length, and positions and block ids that the
metadata can represent. -/
structure EngineConfig.Adequate (config : EngineConfig) (maxModelLen : ℕ) : Prop where
  tokens : 2 ≤ config.maxNumBatchedTokens.val
  seqs : 1 ≤ config.maxNumSeqs.val
  pool : divCeil maxModelLen BLOCK_SIZE ≤ config.numBlocks.val
  positions : maxModelLen < 4294967296
  blockIds : config.numBlocks.val ≤ 2147483648

omit [HashFunction] in
/-- An operation of valid calls. -/
structure Operation.Valid (maxModelLen : ℕ) (o : Operation) : Prop where
  unchanged : o.Unchanged
  limited : ∀ e ∈ o.events, e.Limited
  prompted : ∀ e ∈ o.events, e.Prompted
  within : ∀ e ∈ o.events, e.Within maxModelLen

omit [HashFunction] in
theorem Internal.valid {log : List Operation} (h : Internal log) (maxModelLen : ℕ) :
    ∀ o ∈ log, o.Valid maxModelLen := fun o ho =>
  ⟨h.unchanged o ho, fun _ he => h.acceptsIf ho he _, fun _ he => h.acceptsIf ho he _,
    fun _ he => h.acceptsIf ho he _⟩

/-- An engine core between two steps, after valid calls. -/
structure Served (config : EngineConfig) (model : CausalModel V) (memory : Memory V)
    (maxModelLen : ℕ) (log : List Operation) (core : EngineCore V) : Prop where
  run : Run (MachineStep model) (.initial config memory) log core.machine
  valid : ∀ o ∈ log, o.Valid maxModelLen
  inFlight : core.machine.engine.1.inFlight = none
  bound : core.callSize.isSome = core.isRunning

namespace Served

variable {config : EngineConfig} {memory : Memory V} {maxModelLen : ℕ} {log : List Operation}
  {core : EngineCore V}

theorem initial : Served config model memory maxModelLen [] (.initial config memory) :=
  ⟨.nil, by simp, rfl, rfl⟩

theorem inv (h : Served config model memory maxModelLen log core) :
    Inv core.machine.engine.1 core.machine.engine.2 :=
  EngineConfig.inv_of_run (run_of_machine h.run)

/-- A drained engine is cleared. -/
theorem cleared (h : Served config model memory maxModelLen log core)
    (hdrained : core.isRunning = false) : Cleared core.machine := by
  have hempty : core.machine.engine.1.running = [] ∧ core.machine.engine.1.waiting = [] := by
    simpa [EngineCore.isRunning, Scheduler.isRunning, and_comm] using hdrained
  exact cleared_of_inv h.inv hempty.1 hempty.2 h.inFlight

/-- The rounds of an adequate engine end. -/
theorem serves (h : Served config model memory maxModelLen log core)
    (hadequate : config.Adequate maxModelLen) : config.Serves maxModelLen core.machine.engine where
  reachable := by
    refine ⟨engineLog log, run_of_machine h.run, fun e he => ?_⟩
    obtain ⟨o, ho, he⟩ := List.mem_flatMap.mp he
    exact ⟨(h.valid o ho).prompted e he, (h.valid o ho).within e he⟩
  pool := hadequate.pool
  tokens := (by omega : 1 ≤ 2).trans hadequate.tokens
  seqs := hadequate.seqs

/-- **One step of a call.** It makes a round, or it fails because its execution fails and clears the
engine. -/
theorem step (h : Served config model memory maxModelLen log core)
    (hadequate : config.Adequate maxModelLen) (hlive : core.isRunning = true)
    (execution : ExecutionOutcome V) :
    ∃ log' result core', core.stepInternal model execution = (result, core') ∧
      Served config model memory maxModelLen (log ++ log') core' ∧
      ((∃ outputs, result = .ok outputs ∧ execution = .succeeds ∧
          roundMeasure maxModelLen core'.machine.engine <
            roundMeasure maxModelLen core.machine.engine ∧
          (outputs.map (·.requestId) ++ core'.machine.engine.1.requests.map (·.requestId)).Perm
            (core.machine.engine.1.requests.map (·.requestId)) ∧
          outputsOf (engineLog log') = outputs) ∨
        ∃ message garbage, execution = .fails message garbage ∧
          result = .error ⟨.execution message, none⟩ ∧ Cleared core'.machine) := by
  have S := h.serves hadequate
  obtain ⟨heffect, log', hrun, hinternal, houtputs⟩ :=
    stepInternal_effect h.run h.inFlight execution
  rcases hstep : core.stepInternal model execution with ⟨result, core'⟩
  rw [hstep] at heffect hrun houtputs
  have hvalid : ∀ o ∈ log ++ log', o.Valid maxModelLen := fun o ho =>
    (List.mem_append.mp ho).elim (h.valid o) (hinternal.valid maxModelLen o)
  -- planning neither fails nor finds nothing to do while a request is live
  obtain ⟨plan, st₁, -, -, hplan, -⟩ :=
    S.exists_round h.inFlight hadequate.positions hadequate.blockIds hlive fun _ => 0
  have hbound : core.callSize.isSome = true := h.bound.trans hlive
  refine ⟨log', result, core', rfl, ?_⟩
  cases heffect with
  | idle _ _ hnone =>
    obtain ⟨st, hnone⟩ := hnone
    rw [hplan] at hnone
    cases hnone
  | unplanned herror =>
    obtain ⟨st, herror⟩ := herror
    rw [hplan] at herror
    cases herror
  | @applied _ outputs hsucceeds hround hanswers hcallSize =>
    refine ⟨⟨hrun, hvalid, hround.inFlight S.inv, ?_⟩,
      .inl ⟨outputs, rfl, hsucceeds, S.measure_lt hround (S.not_starves hadequate.tokens),
        hanswers, houtputs outputs rfl⟩⟩
    rw [hcallSize]
    cases core'.isRunning
    · rfl
    · exact hbound
  | @failed _ message garbage hfails hcleared hcallSize =>
    refine ⟨⟨hrun, hvalid, hcleared.inFlight, ?_⟩, .inr ⟨message, garbage, hfails, rfl, hcleared⟩⟩
    rw [hcallSize]
    exact hcleared.drained.symm

/-- **The loop returns.** It collects one output for each live request, or it stops at the first
execution that fails. Either way the engine is cleared. -/
theorem generateLoop (h : Served config model memory maxModelLen log core)
    (hadequate : config.Adequate maxModelLen) (executions : ℕ → ExecutionOutcome V) (step : ℕ)
    {completedOutputs : List RequestOutput} {ids : List ℕ}
    (hids : (completedOutputs.map (·.requestId) ++
      core.machine.engine.1.requests.map (·.requestId)).Perm ids)
    (hcompleted : ∀ output ∈ completedOutputs, output ∈ outputsOf (engineLog log)) :
    ∃ fuel result core' log' steps,
      generateLoop model executions fuel step completedOutputs core = some (result, core') ∧
      Served config model memory maxModelLen (log ++ log') core' ∧ Cleared core'.machine ∧
      (∀ k < steps, executions (step + k) = .succeeds) ∧
      ((∃ outputs, result = .ok outputs ∧ (outputs.map (·.requestId)).Perm ids ∧
          ∀ output ∈ outputs, output ∈ outputsOf (engineLog (log ++ log'))) ∨
        ∃ message garbage, executions (step + steps) = .fails message garbage ∧
          result = .error ⟨.execution message, none⟩) := by
  induction hmeasure : roundMeasure maxModelLen core.machine.engine using WellFoundedLT.induction
    generalizing core log step completedOutputs with
  | ind μ ih =>
    cases hlive : core.isRunning with
    | false =>
      have hcleared := h.cleared hlive
      have hnone : core.machine.engine.1.requests = [] := by
        simp [Scheduler.requests, hcleared.running, hcleared.waiting]
      refine ⟨1, .ok completedOutputs, core, [], 0, ?_, by simpa using h, hcleared, by simp,
        .inl ⟨completedOutputs, rfl, by simpa [hnone] using hids, by simpa using hcompleted⟩⟩
      rw [VllmOxide.generateLoop, hlive]
      rfl
    | true =>
      obtain ⟨log₁, result, core₁, hstep, h₁, hresult⟩ := h.step hadequate hlive (executions step)
      rcases hresult with ⟨outputs, rfl, hsucceeds, hlt, hanswers, houtputs⟩ |
        ⟨message, garbage, hfails, rfl, hcleared⟩
      · have hids₁ : ((completedOutputs ++ outputs).map (·.requestId) ++
            core₁.machine.engine.1.requests.map (·.requestId)).Perm ids := by
          rw [List.map_append, List.append_assoc]
          exact (hanswers.append_left _).trans hids
        have hcompleted₁ : ∀ output ∈ completedOutputs ++ outputs,
            output ∈ outputsOf (engineLog (log ++ log₁)) := by
          intro output houtput
          rw [engineLog_append, outputsOf_append, houtputs]
          exact List.mem_append.mpr ((List.mem_append.mp houtput).imp_left (hcompleted output))
        obtain ⟨fuel, result, core', log', steps, hloop, h', hcleared, hall, hend⟩ :=
          ih _ (hmeasure ▸ hlt) h₁ (step + 1) hids₁ hcompleted₁ rfl
        refine ⟨fuel + 1, result, core', log₁ ++ log', steps + 1, ?_, ?_, hcleared, ?_, ?_⟩
        · rw [VllmOxide.generateLoop, if_pos hlive, hstep]
          exact hloop
        · rwa [← List.append_assoc]
        · intro k hk
          cases k with
          | zero => exact hsucceeds
          | succ k =>
            have := hall k (by omega)
            rwa [Nat.add_assoc, Nat.add_comm 1 k] at this
        · rw [← List.append_assoc, Nat.add_comm steps 1, ← Nat.add_assoc]
          exact hend
      · refine ⟨1, _, core₁, log₁, 0, ?_, h₁, hcleared, by simp,
          .inr ⟨message, garbage, hfails, rfl⟩⟩
        rw [VllmOxide.generateLoop, if_pos hlive, hstep]

end Served

end VllmOxide
