import VllmOxide.System.Progress

/-!
# Rounds

A round is a call of `planStep` that returns a plan, followed by a call of `applyStepResult` that
accepts a result for it. While a request is live, and no request is too large for the pool, a
round is possible whatever tokens are sampled.

## Main definitions

* `StepPlan.answer`: the matching result of a plan for given tokens.
* `Round`: a successful round.
* `Round.Effect`: what a round has done.

## Main results

* `Inv.exists_round`: a round is possible.
* `Round.effect`, `run_of_round`: a round in terms of the two steps it consists of.
-/

namespace VllmOxide

/-- The result that names the planned sequences in order and samples `token id` for the sequences
that may be sampled. -/
def StepPlan.answer (plan : StepPlan) (token : ℕ → Token) : StepResult where
  planId := plan.id
  sequences := plan.sequences.map fun planned =>
    { requestId := planned.requestId
      sequenceId := planned.sequenceId
      sampledToken := if planned.samplingAllowed then some (token planned.sequenceId) else none }

variable [HashFunction]

/-- A successful round. -/
def Round (st st' : EngineState) : Prop :=
  ∃ plan st₁ result outputs, Scheduler.planStep st = .ok (some plan) st₁ ∧
    Scheduler.applyStepResult result st₁ = .ok outputs st'

/-- What a round has done: a selection, and the accepted result of its plan. -/
structure Round.Effect (st : EngineState) (n : ℕ) (kv₁ : BlockPool) (kept admitted : List Sequence)
    (s : Scheduler) (kv : BlockPool) (result : StepResult) (all : List Sequence)
    (st' : EngineState) : Prop where
  selected : Selected st.1 st.2 n kv₁ kept admitted s kv
  planned : ∃ seq ∈ s.running, seq.isScheduled = true
  stepped : List.Forall₂ (Stepped s.eosTokenIds result.sequences) s.running all
  config : st'.1 = { s with
    running := all.filter fun seq => !seq.isFinished
    nextPlanId := st'.1.nextPlanId
    inFlight := none }
  inv : Inv st'.1 st'.2
  length : st'.2.blocks.length = st.2.blocks.length

/-- A round with a given plan and result. -/
theorem Round.effect {st st₁ st' : EngineState} {plan : StepPlan} {result : StepResult}
    {outputs : List RequestOutput} (I : Inv st.1 st.2)
    (hplan : Scheduler.planStep st = .ok (some plan) st₁)
    (happly : Scheduler.applyStepResult result st₁ = .ok outputs st') :
    ∃ n kv₁ kept admitted s kv all,
      Round.Effect st n kv₁ kept admitted s kv result all st' := by
  have hplanned := (Step.planStep hplan).effect I
  have I₁ := hplanned.inv I
  have happlied := (Step.applyStepResult happly).effect I₁
  generalize decision st st₁ = d at hplanned
  cases hplanned with
  | @planned n kv₁ kv kept admitted s _ hinFlight S hsequences hne hid hslots hlengths =>
    generalize houtputs : outputs = o at happlied
    cases happlied with
    | @applied _ all s' kv' haccepts A =>
      obtain ⟨kv₂, -, hsame, huntouched⟩ := A.pool
      refine ⟨n, kv₁, kept, admitted, s, kv, all, S, ?_, A.stepped, ?_, A.inv, ?_⟩
      · rw [hsequences] at hne
        obtain ⟨seq, hseq⟩ := List.exists_mem_of_ne_nil _ (fun h => hne (by rw [plannedEntries, h]; rfl) :
          s.running.filter Sequence.isScheduled ≠ [])
        exact ⟨seq, List.mem_of_mem_filter hseq, (List.mem_filter.mp hseq).2⟩
      · rw [A.config]
      · exact (hsame.length.trans huntouched.length).trans S.content.length

/-- The answers to a plan match the planned sequences. -/
theorem accepts_answer {s : Scheduler} {kv : BlockPool} (I : Inv s kv) {plan : StepPlan}
    (hplan : s.inFlight = some plan) (token : ℕ → Token) : Accepts s (plan.answer token) := by
  refine ⟨plan, hplan, rfl, ?_⟩
  rw [StepPlan.answer, I.entries plan hplan, plannedEntries, List.map_map]
  refine List.forall₂_map_right_iff.mpr (List.forall₂_same.mpr fun seq _ => ⟨rfl, rfl, ?_⟩)
  show (if seq.endsHistory = true then _ else none).isSome = seq.endsHistory
  cases seq.endsHistory <;> rfl

/-- **A round is possible** while a request is live, whatever tokens are sampled. -/
theorem Inv.exists_round {st : EngineState} (I : Inv st.1 st.2) (hordered : Ordered st.1)
    (htokens : 0 < st.1.maxNumBatchedTokens.val) (hseqs : 0 < st.1.maxNumSeqs.val)
    (hinFlight : st.1.inFlight = none) (hfits : Representable st.1 st.2)
    (hlarge : ¬ TooLarge st) (hlive : st.1.isRunning = true) (token : ℕ → Token) :
    ∃ plan st₁ outputs st', Scheduler.planStep st = .ok (some plan) st₁ ∧
      Scheduler.applyStepResult (plan.answer token) st₁ = .ok outputs st' := by
  obtain ⟨n, kv₁, kept, admitted, s, kv', S, O⟩ :=
    I.outcome hordered htokens hseqs hinFlight hfits
  cases O with
  | idle h => rw [h] at hlive; cases hlive
  | noProgress _ h => exact absurd h hlarge
  | planned _ _ plan hsequences hne h =>
    have I₁ := ((Step.planStep h).effect I).inv I
    obtain ⟨all, s', kv'', hrun, -⟩ := I₁.applyStepResult (accepts_answer I₁ rfl token)
    exact ⟨plan, _, _, _, h, hrun⟩

/-- A round extends a run by two events, neither of which accepts a request. -/
theorem run_of_round {config : EngineConfig} {Q : Event → Prop} {log : List Event}
    {st st' : EngineState} (h : Run Step config.initial log st) (hlog : ∀ e ∈ log, Q e)
    (hplanned : ∀ decision plan, Q (.planned decision plan))
    (happlied : ∀ result outputs, Q (.applied result outputs)) (hround : Round st st') :
    ∃ log', Run Step config.initial log' st' ∧ ∀ e ∈ log', Q e := by
  obtain ⟨plan, st₁, result, outputs, hplan, happly⟩ := hround
  refine ⟨_, (h.snoc (.planStep hplan)).snoc (.applyStepResult happly), fun e he => ?_⟩
  simp only [List.mem_append, List.mem_singleton] at he
  rcases he with (he | rfl) | rfl
  · exact hlog e he
  · exact hplanned _ _
  · exact happlied _ _

end VllmOxide
