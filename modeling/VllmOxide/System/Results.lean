import VllmOxide.System.Engine

/-!
# Results are applied exactly once

The scheduler accepts the results that answer the plan in flight, entry by entry. Any other result
is rejected and changes nothing, so that the right result can still be applied; once it has been
applied there is nothing to apply until the next plan.

## Main definitions

* `Answers`: a result answers a plan.
* `Rejection`: the errors of rejected results.

## Main results

* `EngineConfig.applied_once`: acceptance and rejection in reachable states.
-/

namespace VllmOxide

open Scheduler

/-- A result for the entries of a plan, in order, with tokens exactly where the plan allows
sampling. -/
structure Answers (plan : StepPlan) (result : StepResult) : Prop where
  planId : result.planId = plan.id
  sequences : List.Forall₂ (fun planned executed =>
    executed.requestId = planned.requestId ∧ executed.sequenceId = planned.sequenceId ∧
      executed.sampledToken.isSome = planned.samplingAllowed) plan.sequences result.sequences

/-- The error with which a result is rejected. There is none of them about the cache. -/
def Rejection (inFlight : Option StepPlan) (result : StepResult) (error : StepPlanError) : Prop :=
  match inFlight with
  | none => error = .noPlanInFlight result.planId
  | some plan =>
    if result.planId = plan.id then ∃ reason, error = .resultMismatch plan.id reason
    else error = .staleResult plan.id result.planId

/-- The event hands out a plan. -/
def Event.Plans (e : Event) : Prop :=
  ∃ decision plan, e = .planned decision (some plan)

/-- The validation loop only finds mismatches. -/
theorem checkResults_error {planId : ℕ} {running : List Sequence} {error : StepPlanError} :
    ∀ {entries : List (SequenceStepPlan × SequenceStepResult)},
      checkResults planId running entries = .error error →
        ∃ reason, error = .resultMismatch planId reason := by
  intro entries
  induction entries with
  | nil =>
    intro h
    cases h
  | cons entry rest ih =>
    intro h
    rw [checkResults] at h
    split at h
    · exact ⟨_, (Except.error.inj h).symm⟩
    split at h
    · exact ⟨_, (Except.error.inj h).symm⟩
    split at h
    · exact ⟨_, (Except.error.inj h).symm⟩
    split at h
    · exact ⟨_, (Except.error.inj h).symm⟩
    · exact ih h

variable [HashFunction]

section Inv

variable {s : Scheduler} {kv : BlockPool} {result : StepResult}

/-- The accepted results answer the plan in flight. -/
theorem Inv.accepts_iff (I : Inv s kv) :
    Accepts s result ↔ ∃ plan, s.inFlight = some plan ∧ Answers plan result := by
  have hentries : ∀ plan, s.inFlight = some plan →
      (List.Forall₂ Matches (s.running.filter Sequence.isScheduled) result.sequences ↔
        List.Forall₂ (fun planned executed => executed.requestId = planned.requestId ∧
          executed.sequenceId = planned.sequenceId ∧
          executed.sampledToken.isSome = planned.samplingAllowed)
          plan.sequences result.sequences) := by
    intro plan hplan
    rw [I.entries plan hplan, plannedEntries, List.forall₂_map_left_iff]
    refine ⟨fun h => h.imp fun _ _ h => ⟨h.requestId, h.seqId, h.token⟩,
      fun h => h.imp fun _ _ h => ⟨h.1, h.2.1, h.2.2⟩⟩
  constructor
  · rintro ⟨plan, hplan, hid, hmatches⟩
    exact ⟨plan, hplan, hid, (hentries plan hplan).mp hmatches⟩
  · rintro ⟨plan, hplan, hid, hsequences⟩
    exact ⟨plan, hplan, hid, (hentries plan hplan).mpr hsequences⟩

/-- A result is rejected before anything changes, with an error that is not about the cache. -/
theorem Inv.rejection (I : Inv s kv) {error : StepPlanError} {st' : EngineState}
    (h : Scheduler.applyStepResult result (s, kv) = .error error st') :
    st' = (s, kv) ∧ Rejection s.inFlight result error := by
  have hrejects : ¬ Accepts s result := fun haccepts => by
    obtain ⟨all, s', kv', hrun, -⟩ := I.applyStepResult haccepts
    rw [hrun] at h
    cases h
  obtain ⟨error', hrun⟩ := I.applyStepResult_error hrejects
  obtain ⟨rfl, rfl⟩ : error' = error ∧ (s, kv) = st' := by
    rw [hrun] at h
    cases h
    exact ⟨rfl, rfl⟩
  refine ⟨rfl, ?_⟩
  simp only [Scheduler.applyStepResult] at h
  cases hplan : s.inFlight with
  | none =>
    simp only [hplan] at h
    cases h
    rfl
  | some plan =>
    simp only [hplan] at h
    dsimp only [Rejection]
    split
    · rename_i hid
      rw [if_neg (not_not.mpr hid)] at h
      split at h
      · cases h
        exact ⟨_, rfl⟩
      rename_i hlen
      cases hcheck : checkResults plan.id s.running (plan.sequences.zip result.sequences) with
      | error error =>
        rw [hcheck] at h
        cases h
        exact checkResults_error hcheck
      | ok _ =>
        -- a result that passes the validation has been applied
        refine absurd ⟨plan, hplan, hid, ?_⟩ hrejects
        have hentries := I.entries plan hplan
        rw [not_not, hentries, plannedEntries, List.length_map] at hlen
        rw [hentries] at hcheck
        exact (checkResults_iff plan.id kv I.core.running
          (fun seq hseq => List.mem_of_mem_filter hseq) hlen).mp hcheck
    · rename_i hid
      rw [if_pos hid] at h
      cases h
      rfl

end Inv

/-- Until the next plan there is nothing in flight. -/
theorem EngineConfig.inFlight_eq_none {config : EngineConfig} {log log' : List Event}
    {st st' : EngineState} (h : Run Step config.initial log st) (hnone : st.1.inFlight = none)
    (h' : Run Step st log' st') (hlog' : ∀ e ∈ log', ¬ e.Plans) : st'.1.inFlight = none := by
  refine h'.invariant_of_forall hlog' (P := fun _ st => st.1.inFlight = none) hnone ?_
  intro _ st₁ e st₂ hrun _ hnone hplans hstep
  have heffect := hstep.effect (EngineConfig.inv_of_run (h.append hrun))
  cases heffect with
  | accepted => exact hnone
  | planned => exact absurd ⟨_, _, rfl⟩ hplans
  | idle _ S | noProgress _ S | unrepresentable _ S =>
    rw [S.config]
    exact hnone
  | busy | rejected => exact hnone
  | applied _ A => rw [A.config]
  | aborted => rfl

/-- **Results are applied exactly once.** In every reachable state and for every result:
* it is accepted if and only if it answers the plan in flight;
* otherwise nothing changes, and the error is not about the cache;
* rejected results, as many as there are, leave the state as it is;
* after it has been accepted every result is rejected, and nothing changes, until the next plan. -/
theorem EngineConfig.applied_once (config : EngineConfig) {log : List Event} {st : EngineState}
    (h : Run Step config.initial log st) (result : StepResult) :
    ((∃ outputs st', Scheduler.applyStepResult result st = .ok outputs st') ↔
      ∃ plan, st.1.inFlight = some plan ∧ Answers plan result) ∧
    (∀ error st', Scheduler.applyStepResult result st = .error error st' →
      st' = st ∧ Rejection st.1.inFlight result error) ∧
    (∀ log' st', Run Step st log' st' → (∀ e ∈ log', ∃ result error, e = .rejected result error) →
      st' = st) ∧
    ∀ outputs st', Scheduler.applyStepResult result st = .ok outputs st' →
      ∀ log' st'', Run Step st' log' st'' → (∀ e ∈ log', ¬ e.Plans) → ∀ result',
        Scheduler.applyStepResult result' st'' = .error (.noPlanInFlight result'.planId) st'' := by
  have I := EngineConfig.inv_of_run h
  refine ⟨?_, fun error st' happly => I.rejection happly, fun log' st' hrun hlog' => ?_,
    fun outputs st' happly log' st'' hrun hlog' result' => ?_⟩
  · rw [← I.accepts_iff]
    constructor
    · rintro ⟨outputs, st', happly⟩
      by_contra hrejects
      obtain ⟨error, hrun⟩ := I.applyStepResult_error hrejects
      rw [hrun] at happly
      cases happly
    · intro haccepts
      obtain ⟨all, s', kv', hrun, -⟩ := I.applyStepResult haccepts
      exact ⟨_, _, hrun⟩
  · refine hrun.invariant_of_forall hlog' (P := fun _ st' => st' = st) rfl ?_
    rintro _ _ _ st₂ - - rfl ⟨result, error, rfl⟩ hstep
    have heffect := hstep.effect I
    cases heffect
    rfl
  · have hnone : st'.1.inFlight = none := by
      have heffect := (Step.applyStepResult happly).effect I
      generalize outputs = o at heffect
      cases heffect with
      | applied _ A => rw [A.config]
    have hlater := EngineConfig.inFlight_eq_none (h.snoc (.applyStepResult happly)) hnone hrun hlog'
    simp only [Scheduler.applyStepResult, hlater]

omit [HashFunction] in
/-- Two requests are planned. The result for both of them is accepted, and a second one is not. -/
theorem applied_once_twoRequests :
    letI := constantHash
    ∃ st outputs st', (performAll (EngineConfig.plain 2 16 2).initial
        (twoRequests ++ [.planStep])).2 = st ∧
      Scheduler.applyStepResult ⟨0, [⟨0, 0, some 7⟩, ⟨1, 1, some 8⟩]⟩ st = .ok outputs st' ∧
      Scheduler.applyStepResult ⟨0, [⟨0, 0, some 7⟩, ⟨1, 1, some 8⟩]⟩ st' =
        .error (.noPlanInFlight 0) st' := by
  let _ := constantHash
  let actions := twoRequests ++ [.planStep]
  have hrun := run_performAll actions (EngineConfig.plain 2 16 2).initial
  have haccepts : ((Scheduler.applyStepResult ⟨0, [⟨0, 0, some 7⟩, ⟨1, 1, some 8⟩]⟩).run'
      (performAll (EngineConfig.plain 2 16 2).initial actions).2).isSome = true := by
    decide +kernel
  obtain ⟨outputs, st', happly⟩ := exists_of_run'_isSome haccepts
  exact ⟨_, outputs, st', rfl, happly,
    (EngineConfig.applied_once _ hrun _).2.2.2 outputs st' happly [] st' .nil (by simp) _⟩

end VllmOxide
