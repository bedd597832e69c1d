import VllmOxide.Scheduling.Plan

/-!
# What a plan says about its decision

The phase, the continuation flag and the blocked admission of a plan are those of the work that was
selected. They are read off the queues, partly before and partly after the admissions.

## Main definitions

* `Reports`: what a selection says about a decision.
* `Captures`: what a plan says about a selection.

## Main results

* `selectWork_reports`, `planStep_captures`: decisions and plans read backwards.
* `Core.planStep_some`: the decision behind a plan.
-/

namespace VllmOxide

open Scheduler

/-- What a plan says about the selected work: `s` and `kv` are the state after the selection. -/
structure Captures (selection : WorkSelection) (s : Scheduler) (kv : BlockPool) (plan : StepPlan)
    (s' : Scheduler) : Prop where
  phase : plan.phase = selection.phase
  blockedAdmission : plan.blockedAdmission = selection.blockedAdmission
  tokenBudget : plan.tokenBudget = (plan.sequences.map (·.tokenBudget)).sum
  attention : planMetadata selection plan.sequences
    (plan.sequences.flatMap (·.cache.slotMapping)) = .ok plan.attention
  sequences : (planSequences kv s.running).2 = .ok plan.sequences
  nonempty : plan.sequences ≠ []
  state : s' = { s with
    running := (planSequences kv s.running).1
    nextPlanId := s.nextPlanId + 1
    inFlight := some plan }

variable [HashFunction]

/-- What a selection says about a decision: `s₁` and `kv₁` are the state after the preemptions,
`s` and `kv` the one after the decision. -/
structure Reports (s₁ : Scheduler) (kv₁ : BlockPool) (s : Scheduler) (kv : BlockPool)
    (selection : WorkSelection) : Prop where
  blocked : selection.blockedAdmission =
    (s₁.admissionBlock kv₁ 0).orElse fun _ => s.admissionBlock kv s.scheduledTokens
  phase : (s₁.running ≠ [] ∧
      selection = s.selectedWork s₁.running.length selection.blockedAdmission) ∨
    (s₁.running = [] ∧ selection.phase = .prefill ∧ selection.isPrefillContinuation = false)

/-- Admissions report a plain prefill. -/
theorem schedulePrefillWithBudget_selection {tokenBudget : ℕ} {selection : WorkSelection}
    {state state' : Scheduler × BlockPool}
    (h : schedulePrefillWithBudget tokenBudget state = .ok selection state') :
    selection = ⟨.prefill, false, none⟩ := by
  obtain ⟨s, kv⟩ := state
  simp only [schedulePrefillWithBudget] at h
  split at h
  · cases h
    rfl
  · split at h
    · cases h
    · cases h
      rfl

/-- The selection of a successful decision. -/
theorem selectWork_reports {selection : WorkSelection} {state : Scheduler × BlockPool}
    {s : Scheduler} {kv : BlockPool} (h : selectWork state = .ok selection (s, kv)) :
    ∃ s₁ kv₁, preemptIfNeeded state = .ok () (s₁, kv₁) ∧ Reports s₁ kv₁ s kv selection := by
  simp only [selectWork] at h
  split at h
  · cases h
  · rename_i s₁ kv₁ hpreempts
    refine ⟨s₁, kv₁, hpreempts, ?_⟩
    split at h
    · rename_i hne
      split at h
      · cases h
      · split at h
        · cases h
        · cases h
          exact ⟨rfl, .inl ⟨hne, rfl⟩⟩
    · rename_i hnil
      split at h
      · cases h
      · rename_i hprefill
        obtain rfl := schedulePrefillWithBudget_selection hprefill
        cases h
        exact ⟨rfl, .inr ⟨not_not.mp hnil, rfl, rfl⟩⟩

/-- The selection behind a plan. -/
theorem planStep_captures {s s' : Scheduler} {kv kv' : BlockPool} {plan : StepPlan}
    (h : planStep (s, kv) = .ok (some plan) (s', kv')) :
    s.inFlight = none ∧ ∃ selection s₁, selectWork (s, kv) = .ok selection (s₁, kv') ∧
      Captures selection s₁ kv' plan s' := by
  simp only [planStep] at h
  split at h
  · cases h
  · rename_i hinFlight
    refine ⟨hinFlight, ?_⟩
    split at h
    · cases h
    · rename_i selection s₁ kv₁ hselect
      split at h
      · cases h
      · split at h <;> cases h
      · rename_i running first rest hentries
        split at h
        · cases h
        · rename_i attention hattention
          cases h
          refine ⟨selection, s₁, hselect, rfl, rfl, rfl, hattention, ?_, List.cons_ne_nil _ _, ?_⟩
          · rw [hentries]
          · rw [hentries]

/-- **The decision behind a plan.** -/
theorem Core.planStep_some {s s' : Scheduler} {kv kv' : BlockPool} (C : Core s kv)
    {plan : StepPlan} (h : Scheduler.planStep (s, kv) = .ok (some plan) (s', kv')) :
    ∃ selection n kv₁ kept admitted s₁,
      Scheduler.selectWork (s, kv) = .ok selection (s₁, kv') ∧
      Selected s kv n kv₁ kept admitted s₁ kv' ∧
      Reports (s.preemptTo n) kv₁ s₁ kv' selection ∧ Captures selection s₁ kv' plan s' ∧
      plan.sequences = plannedEntries kv' s₁.running ∧
      s' = { s₁ with nextPlanId := s₁.nextPlanId + 1, inFlight := some plan } := by
  obtain ⟨-, selection, s₁, hselect, hcaptures⟩ := planStep_captures h
  obtain ⟨selection', n, kv₁, kept, admitted, s₁', kv'', hselect', S⟩ := C.selectWork
  rw [hselect] at hselect'
  cases hselect'
  obtain ⟨s₂, kv₂, hpreempts, hreports⟩ := selectWork_reports hselect
  have hsame := hpreempts.symm.trans S.preempts
  cases hsame
  obtain ⟨hrunning, hentries⟩ := planSequences_eq kv' S.core.running S.work
  refine ⟨selection, n, kv₁, kept, admitted, s₁, hselect, S, hreports, hcaptures, ?_, ?_⟩
  · rcases hentries with hentries | ⟨⟨message, herror⟩, -⟩
    · exact Except.ok.inj (hcaptures.sequences.symm.trans hentries)
    · rw [hcaptures.sequences] at herror
      cases herror
  · rw [hcaptures.state, hrunning]

end VllmOxide
