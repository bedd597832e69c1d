import VllmOxide.System.Termination

/-!
# The oldest request

With at least two tokens to a step the reserved admission token never is the whole budget, so the
oldest request is in every plan and no decision that returns a plan takes it from the running
queue. Together with the measure of the rounds this is why every request finishes.

Two kinds of requests stand aside. A request without a prompt never has work and is skipped, and a
request whose length does not fit the machine integers of the attention metadata is refused.

## Main results

* `EngineConfig.oldest_progresses`: the oldest request is in every plan.
* `oldest_skipped_or_refused`: the requests that stand aside.
-/

namespace VllmOxide

variable [HashFunction]

section Planned

variable {st : EngineState} {n : ℕ} {kv₁ kv : BlockPool} {kept admitted : List Sequence}
  {s : Scheduler}

/-- The oldest request runs after a decision that has found work, and it has a part of it. -/
theorem Selected.oldest_scheduled (S : Selected st.1 st.2 n kv₁ kept admitted s kv)
    (hordered : Ordered st.1) (htokens : 2 ≤ st.1.maxNumBatchedTokens.val) {r : Request}
    (hr : IsOldest st.1 r) (hne : plannedEntries kv s.running ≠ []) :
    ∃ o ∈ s.running, o.request = r ∧ 0 < o.numScheduledTokens := by
  have hhead := hordered.head_eq.mpr hr
  rw [← S.ordered hordered.waiting_pos, Scheduler.requests] at hhead
  cases hrunning : s.running with
  | nil => rw [hrunning] at hne; exact absurd rfl hne
  | cons o rest =>
    rw [hrunning, List.cons_append, List.map_cons, List.head?_cons] at hhead
    have hbudget : 0 < (st.1.preemptTo n).runningBudget kv₁ := by
      show 0 < st.1.maxNumBatchedTokens.val -
        (if (st.1.preemptTo n).reserveAdmissionToken kv₁ then 1 else 0)
      split <;> omega
    exact ⟨o, List.mem_cons_self, Option.some.inj hhead,
      S.head_scheduled hbudget (by rw [hrunning]; rfl)⟩

/-- The oldest request is not preempted unless it is too large. -/
theorem Selected.oldest_not_preempted (S : Selected st.1 st.2 n kv₁ kept admitted s kv)
    (hordered : Ordered st.1) (hlarge : ¬ TooLarge st) {r : Request} (hr : IsOldest st.1 r) :
    r.seqId ∉ (decisionOf st.1 n admitted).preempted := by
  intro hmem
  obtain ⟨victim, hvictim, hid⟩ := List.mem_map.mp hmem
  have hn := S.pos_of_not_large hordered hlarge
    (List.ne_nil_of_mem (List.mem_of_mem_drop hvictim))
  have hlt : 0 < st.1.running.length :=
    List.length_pos_of_mem (List.mem_of_mem_drop hvictim)
  -- the first running request is kept, and it is older than the victim
  have hsorted := hordered.sorted
  rw [Scheduler.ids, ← List.take_append_drop n st.1.running, List.append_assoc, List.map_append,
    List.pairwise_append] at hsorted
  have hfirst : st.1.running[0] ∈ st.1.running.take n :=
    List.mem_take_iff_getElem.mpr ⟨0, by omega, rfl⟩
  have hless := hsorted.2.2 _ (List.mem_map_of_mem hfirst) _
    (List.mem_map_of_mem (List.mem_append_left _ hvictim))
  have hle : r.seqId ≤ st.1.running[0].seqId := hr.2 st.1.running[0].request
    (List.mem_map_of_mem (List.mem_append_left _ (List.mem_of_mem_take hfirst)))
  omega

end Planned

/-- **The oldest request progresses.** Take a reachable state with live requests and no plan in
flight, at least two tokens and one sequence to a step, no empty prompt, and numbers that fit their
machine integers.
* `planStep` fails with `noProgress` or returns a plan.
* A plan that is returned has at least one token for the live request with the smallest id, which
  the decision has not preempted and which runs afterwards, so that no admission of it was rolled
  back.
* If the requests were accepted for a model length that the pool holds, the rounds come to an end. -/
theorem EngineConfig.oldest_progresses (config : EngineConfig) {log : List Event}
    {st : EngineState} (h : Run Step config.initial log st) (hprompts : ∀ e ∈ log, e.Prompted)
    (htokens : 2 ≤ config.maxNumBatchedTokens.val) (hseqs : 1 ≤ config.maxNumSeqs.val)
    (hinFlight : st.1.inFlight = none) (hfits : Representable st.1 st.2)
    (hlive : st.1.isRunning = true) :
    ((∃ waiting running budget free blocked st', Scheduler.planStep st =
        .error (.noProgress waiting running budget free blocked) st') ∨
      ∃ plan st', Scheduler.planStep st = .ok (some plan) st') ∧
    (∀ plan st', Scheduler.planStep st = .ok (some plan) st' → ∀ r, IsOldest st.1 r →
      (∃ entry ∈ plan.sequences, entry.requestId = r.requestId ∧ entry.sequenceId = r.seqId ∧
        0 < entry.tokenRange.len) ∧
      r.seqId ∉ (decision st st').preempted ∧ r.seqId ∈ st'.1.running.map (·.seqId)) ∧
    ∀ maxModelLen, (∀ e ∈ log, e.Within maxModelLen) →
      divCeil maxModelLen BLOCK_SIZE ≤ config.numBlocks.val →
      ∀ rounds : ℕ → EngineState, rounds 0 = st → ¬ ∀ i, Round (rounds i) (rounds (i + 1)) := by
  have I := EngineConfig.inv_of_run h
  have hordered := EngineConfig.ordered_of_run h hprompts
  have hgoverns := EngineConfig.governs_of_run h
  have htokens' : 2 ≤ st.1.maxNumBatchedTokens.val := by
    rw [hgoverns.maxNumBatchedTokens]
    exact htokens
  obtain ⟨n, kv₁, kept, admitted, s, kv', S, O⟩ := I.outcome hordered (by omega)
    (by rw [hgoverns.maxNumSeqs]; exact hseqs) hinFlight hfits
  refine ⟨?_, fun plan st' hplan r hr => ?_, fun maxModelLen hwithin hpool rounds hstart => ?_⟩
  · cases O with
    | idle hidle => rw [hidle] at hlive; cases hlive
    | noProgress _ _ _ _ _ _ _ h => exact .inl ⟨_, _, _, _, _, _, h⟩
    | planned _ _ plan _ _ h => exact .inr ⟨plan, _, h⟩
  · cases O with
    | idle _ h | noProgress _ _ _ _ _ _ _ h => rw [h] at hplan; cases hplan
    | planned _ hlarge plan' hsequences hne h =>
      rw [h] at hplan
      cases hplan
      obtain ⟨o, ho, rfl, hpos⟩ := S.oldest_scheduled hordered htokens' hr (hsequences ▸ hne)
      refine ⟨⟨o.plannedEntry kv', ?_, rfl, rfl, ?_⟩, ?_, List.mem_map_of_mem ho⟩
      · rw [hsequences]
        exact List.mem_map_of_mem (List.mem_filter.mpr ⟨ho, decide_eq_true hpos⟩)
      · show 0 < o.numCachedTokens + o.numScheduledTokens - o.numCachedTokens
        omega
      · have hpreempted : (decision st ({ s with
            nextPlanId := s.nextPlanId + 1
            inFlight := some plan }, kv')).preempted = (decisionOf st.1 n admitted).preempted := by
          rw [decision, decisionOf, survivors_of_selected hinFlight S]
        rw [hpreempted]
        exact S.oldest_not_preempted hordered hlarge hr
  · have hserves : config.Serves maxModelLen (rounds 0) := by
      rw [hstart]
      exact ⟨⟨log, h, fun e he => ⟨hprompts e he, hwithin e he⟩⟩, hpool, by omega, hseqs⟩
    intro hrounds
    refine hserves.not_infinite (fun i => ?_) hrounds
    have hi : config.Serves maxModelLen (rounds i) := by
      induction i with
      | zero => exact hserves
      | succ i ih => exact ih.round (hrounds i)
    exact hi.not_starves htokens

omit [HashFunction] in
/-- The first plan for two requests has work for the older one. -/
theorem oldest_progresses_twoRequests :
    letI := constantHash
    ∃ plan st', Scheduler.planStep (performAll (EngineConfig.plain 2 2 1).initial twoRequests).2 =
        .ok (some plan) st' ∧
      ∃ entry ∈ plan.sequences, entry.requestId = 0 ∧ 0 < entry.tokenRange.len := by
  let _ := constantHash
  let st := (performAll (EngineConfig.plain 2 2 1).initial twoRequests).2
  have hplanned : (plannedBy st).isSome = true := by decide +kernel
  obtain ⟨⟨plan, st'⟩, hplan⟩ := Option.isSome_iff_exists.mp hplanned
  have h := EngineConfig.oldest_progresses (EngineConfig.plain 2 2 1)
    (run_performAll twoRequests _) (acceptsIf_performAll (fun _ _ h => (of_mem_twoRequests h).1) _)
    (by simp [EngineConfig.plain, Usize.clamp, USIZE_MAX])
    (by simp [EngineConfig.plain, Usize.clamp, USIZE_MAX]) rfl
    ⟨by decide +kernel, by decide +kernel⟩ rfl
  have holdest : IsOldest st.1 (Sequence.new 0 0 [1, 2, 3] (.limited 2)).request :=
    ⟨List.mem_cons_self, fun _ _ => Nat.zero_le _⟩
  obtain ⟨⟨entry, hentry, hid, -, hlen⟩, -, -⟩ :=
    h.2.1 plan st' (planStep_of_plannedBy hplan) _ holdest
  exact ⟨plan, st', planStep_of_plannedBy hplan, entry, hentry, hid, hlen⟩

/-! ### Requests that stand aside -/

/-- A prompt whose length does not fit `u32` is refused although the pool holds it. -/
theorem planStep_of_long_prompt (config : EngineConfig) (promptTokenIds : List Token)
    (params : SamplingParams) (hlong : 4294967296 ≤ promptTokenIds.length)
    (htokens : promptTokenIds.length ≤ config.maxNumBatchedTokens.val)
    (hseqs : 1 ≤ config.maxNumSeqs.val)
    (hpool : promptTokenIds.length ≤ BLOCK_SIZE * config.numBlocks.val) :
    ∃ message st', Scheduler.planStep
      ((config.initial.1.addRequest promptTokenIds params).2, config.initial.2) =
        .error (.invalid message) st' := by
  set st : EngineState := ((config.initial.1.addRequest promptTokenIds params).2,
    config.initial.2) with hst
  have hrun : Run Step config.initial _ st :=
    .single (.addRequest config.initial.1 config.initial.2 promptTokenIds params)
  have hordered : Ordered st.1 := by
    refine EngineConfig.ordered_of_run hrun fun e he => ?_
    obtain rfl := List.mem_singleton.mp he
    exact List.ne_nil_of_length_pos (by omega)
  have hrunning : st.1.running = [] := rfl
  have hrequests : st.1.requests =
      [(Sequence.new 0 0 promptTokenIds params).request] := rfl
  have hlength : st.2.blocks.length = config.numBlocks.val :=
    (EngineConfig.governs_of_run hrun).length
  obtain ⟨n, kv₁, kept, admitted, s, kv', S, P⟩ :=
    (EngineConfig.inv_of_run hrun).core.planStep (rfl : st.1.inFlight = none)
  have hrequests' := (S.ordered hordered.waiting_pos).trans hrequests
  have hlive : s.isRunning = true := by
    rw [Scheduler.isRunning_iff, hrequests']
    exact List.cons_ne_nil _ _
  generalize hresult : Scheduler.planStep (st.1, st.2) = result at P
  cases P with
  | idle _ hidle => rw [hidle] at hlive; cases hlive
  | unrepresentable message => exact ⟨message, _, rfl⟩
  | noProgress hnone =>
    obtain ⟨r, hhead, hlarge⟩ := S.large_of_idle hordered
      (show 0 < config.maxNumBatchedTokens.val by omega) hseqs
      (plannedEntries_eq_nil_iff.mp hnone) hlive
    obtain rfl : (Sequence.new 0 0 promptTokenIds params).request = r := by
      simpa [hrequests] using hhead
    have hblocks : (promptTokenIds.length + (BLOCK_SIZE - 1)) / BLOCK_SIZE >
        config.numBlocks.val := hlength ▸ hlarge
    simp only [BLOCK_SIZE] at hblocks hpool
    omega
  | planned plan hsequences hne hid hslots hlengths =>
    -- the request got its whole prompt, and the key length of its entry fits `u32`
    exfalso
    have hn : n = 0 := Nat.le_zero.mp S.n_le
    have hkept : kept = [] := List.length_eq_zero_iff.mp (S.length_kept.trans hn)
    have hadmitted : s.running = admitted := by rw [S.running, hkept, List.nil_append]
    cases hcons : admitted with
    | nil =>
      rw [hsequences, hadmitted, hcons] at hne
      exact hne rfl
    | cons o rest =>
      have hfirst := S.first hkept o (by rw [hcons]; rfl)
      have hfresh := S.fresh o (by rw [hcons]; exact List.mem_cons_self)
      have hnum : o.request.numTokens = promptTokenIds.length := by
        rw [Scheduler.requests, hadmitted, hcons, List.cons_append, List.map_cons] at hrequests'
        rw [(List.cons.inj hrequests').1]
        rfl
      have hpositive := hfresh.scheduled_pos
      have hcached := hfresh.prefilling.cached_lt
      have htarget := hfresh.prefilling.target
      have hentry : o.plannedEntry kv' ∈ plan.sequences := by
        rw [hsequences, hadmitted, hcons]
        exact List.mem_map_of_mem (List.mem_filter.mpr
          ⟨List.mem_cons_self, decide_eq_true hpositive⟩)
      have hlt : o.numCachedTokens + o.numScheduledTokens < 4294967296 := hlengths _ hentry
      have hbudget : st.1.maxNumBatchedTokens.val = config.maxNumBatchedTokens.val := rfl
      have hsame : o.request.numTokens = o.numTokens := rfl
      omega

omit [HashFunction] in
/-- **The requests that stand aside.** After an empty prompt and a prompt of one token are
accepted, the plan has work for the second request only; and after a prompt of `2 ^ 32` tokens is
accepted, planning fails as invalid, although the pool holds the prompt. -/
theorem oldest_skipped_or_refused :
    letI := constantHash
    (∃ (config : EngineConfig) (log : List Event) (st st' : EngineState) (plan : StepPlan),
      Run Step config.initial log st ∧ 2 ≤ config.maxNumBatchedTokens.val ∧
      1 ≤ config.maxNumSeqs.val ∧ st.1.inFlight = none ∧ st.1.isRunning = true ∧
      Scheduler.planStep st = .ok (some plan) st' ∧
      ∃ r, IsOldest st.1 r ∧ ∀ entry ∈ plan.sequences, entry.sequenceId ≠ r.seqId) ∧
    ∃ (config : EngineConfig) (log : List Event) (st st' : EngineState) (message : String),
      Run Step config.initial log st ∧ (∀ e ∈ log, e.Prompted) ∧
      2 ≤ config.maxNumBatchedTokens.val ∧ 1 ≤ config.maxNumSeqs.val ∧ st.1.inFlight = none ∧
      st.1.isRunning = true ∧ Scheduler.planStep st = .error (.invalid message) st' := by
  let _ := constantHash
  refine ⟨?_, ?_⟩
  · let config := EngineConfig.plain 2 4 2
    let accepted := performAll config.initial [.addRequest [] .default, .addRequest [7] .default]
    have hrequests : accepted.2.1.requests = [(Sequence.new 0 0 [] .default).request,
        (Sequence.new 1 1 [7] .default).request] := rfl
    have hplanned : (plannedBy accepted.2).map (fun planned =>
        planned.1.sequences.map (·.sequenceId)) = some [1] := by decide +kernel
    obtain ⟨⟨plan, st'⟩, hplan, hids⟩ := Option.map_eq_some_iff.mp hplanned
    refine ⟨config, accepted.1, accepted.2, st', plan, run_performAll _ _,
      by simp [config, EngineConfig.plain, Usize.clamp, USIZE_MAX],
      by simp [config, EngineConfig.plain, Usize.clamp, USIZE_MAX], rfl, rfl,
      planStep_of_plannedBy hplan,
      (Sequence.new 0 0 [] .default).request, ⟨by simp [hrequests], fun _ _ => Nat.zero_le _⟩,
      fun entry hentry => ?_⟩
    have hmem : entry.sequenceId ∈ plan.sequences.map (·.sequenceId) :=
      List.mem_map_of_mem hentry
    obtain hone : entry.sequenceId = 1 := by simpa [hids] using hmem
    rw [hone]
    exact Nat.one_ne_zero
  · have hlength : (List.replicate 4294967296 (0 : Token)).length = 4294967296 :=
      List.length_replicate
    let config := EngineConfig.plain 16777216 4294967296 1
    have htokens : config.maxNumBatchedTokens.val = 4294967296 := by
      simp [config, EngineConfig.plain, Usize.clamp, USIZE_MAX]
    have hseqs : config.maxNumSeqs.val = 1 := by
      simp [config, EngineConfig.plain, Usize.clamp, USIZE_MAX]
    have hblocks : config.numBlocks.val = 16777216 := by
      simp [config, EngineConfig.plain, Usize.clamp, USIZE_MAX]
    obtain ⟨message, st', h⟩ := planStep_of_long_prompt config (List.replicate 4294967296 0)
      .default (by omega) (by omega) (by omega) (by simp only [BLOCK_SIZE]; omega)
    refine ⟨config, _, _, st', message, .single (.addRequest _ _ _ _), fun e he => ?_, by omega,
      by omega, rfl, rfl, h⟩
    obtain rfl := List.mem_singleton.mp he
    exact List.ne_nil_of_length_pos (by rw [hlength]; omega)

end VllmOxide
