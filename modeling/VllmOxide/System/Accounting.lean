import VllmOxide.System.Track

/-!
# Accounting of the token ranges

Every planned range continues the ones planned for the request since its last admission, and
a token is sampled only when they have reached the end of its history. Only accepted results
change a history.

## Main definitions

* `Accounts`: the track of a request accounts for an entry of a plan.

## Main results

* `EngineConfig.token_ranges`: the accounting of every run.
-/

namespace VllmOxide

/-- The track of a request, with the range of the entry as its last one, accounts for an entry of
a plan. -/
structure Accounts (t : Track) (entry : SequenceStepPlan) : Prop where
  requestId : entry.requestId = entry.sequenceId
  tokenHistory : entry.tokenHistory = t.history
  samplingParams : entry.samplingParams = t.params
  /-- The range is the last one planned, and the ranges are contiguous. -/
  planned : ∃ start ranges, t.planned = some (start, ranges ++ [entry.tokenRange]) ∧
    Contiguous start (ranges ++ [entry.tokenRange]) entry.tokenRange.stop
  cached : entry.cache.cachedTokenRange = ⟨0, entry.tokenRange.start⟩
  nonempty : entry.tokenRange.start < entry.tokenRange.stop
  prefill : entry.phase = .prefill → entry.tokenRange.stop ≤ t.target
  /-- A decode has everything but the last token in the cache, and plans the last token. -/
  decode : entry.phase = .decode → t.target ≤ entry.tokenRange.start ∧
    entry.tokenRange.start + 1 = t.history.length ∧ entry.tokenRange.stop = t.history.length
  sampling : entry.samplingAllowed = true ↔
    entry.phase = .decode ∨ entry.tokenRange.stop = t.target
  complete : entry.samplingAllowed = true → entry.tokenRange.stop = t.history.length

variable [HashFunction]

omit [HashFunction] in
/-- The track of a planned sequence accounts for its entry. -/
theorem Track.Runs.accounts {t : Track} {seq : Sequence} {kv : BlockPool}
    (h : t.Runs (seq.numCachedTokens + seq.numScheduledTokens) seq) (hok : seq.RunningOk)
    (hwork : seq.WorkOk) (hscheduled : seq.isScheduled = true) (hid : seq.requestId = seq.seqId)
    (hlast : ∃ start ranges, t.planned = some (start, ranges ++ [seq.plannedTokens])) :
    Accounts t (seq.plannedEntry kv) := by
  have hpos : 0 < seq.numScheduledTokens := of_decide_eq_true hscheduled
  have hle := hwork.le
  have htokens : seq.tokenIds = t.history := h.of.tokenIds
  have hlen : seq.numTokens = t.history.length := by rw [hok.numTokens, htokens]
  have hends : seq.endsHistory = true ↔
      seq.numCachedTokens + seq.numScheduledTokens = seq.numTokens := decide_eq_true_iff
  refine ⟨hid, htokens, h.of.params, ?_, rfl, Nat.lt_add_of_pos_right hpos, fun hp => ?_,
    fun hd => ?_, ?_, fun hsampling => (hends.mp hsampling).trans hlen⟩
  · obtain ⟨start, ranges, hplanned⟩ := hlast
    obtain ⟨start', ranges', hplanned', hcontiguous⟩ := h.planned
    rw [hplanned] at hplanned'
    obtain ⟨rfl, rfl⟩ := Prod.mk.inj (Option.some.inj hplanned')
    exact ⟨start, ranges, hplanned, hcontiguous⟩
  · exact hle.trans (h.prefill hp).ge
  · have hcached := (hok.decoding hd).cached
    refine ⟨h.decode hd, hcached.trans hlen, ?_⟩
    show seq.numCachedTokens + seq.numScheduledTokens = t.history.length
    omega
  · refine hends.trans ?_
    show _ ↔ seq.phase = .decode ∨ seq.numCachedTokens + seq.numScheduledTokens = t.target
    rcases hok.progress with hp | hd
    · rw [h.prefill hp.phase, hp.phase]
      simp
    · have hcached := hd.cached
      simp only [hd.phase, true_or, iff_true]
      omega

/-- **Accounting.** In a reachable state:
* the ranges planned for a request since its last admission are contiguous;
* the tracks account for every entry of a plan that `planStep` returns;
* a token of an accepted result belongs to a request for which its complete history has been
  planned since its last admission;
* the ids, histories and parameters of the live requests are those of their tracks;
* a decision, with its preemptions and rollbacks, does not change the live requests, and a rejected
  result does not change anything. -/
theorem EngineConfig.token_ranges (config : EngineConfig) {log : List Event} {st : EngineState}
    (h : Run Step config.initial log st) :
    (∀ id t start ranges, track id log = some t → t.planned = some (start, ranges) →
      ∃ stop, Contiguous start ranges stop) ∧
    (∀ plan st', Scheduler.planStep st = .ok (some plan) st' → ∀ entry ∈ plan.sequences,
      ∃ t, track entry.sequenceId (log ++ [.planned (decision st st') (some plan)]) = some t ∧
        Accounts t entry) ∧
    (∀ result outputs st', Scheduler.applyStepResult result st = .ok outputs st' →
      ∀ executed ∈ result.sequences, executed.sampledToken.isSome = true →
      ∃ t start ranges, track executed.sequenceId log = some t ∧
        t.planned = some (start, ranges) ∧ Contiguous start ranges t.history.length) ∧
    (∀ r ∈ st.1.requests, r.requestId = r.seqId ∧ ∃ t, track r.seqId log = some t ∧ t.Of r) ∧
    (∀ st', PlansTo st st' → st'.1.requests.Perm st.1.requests) ∧
    ∀ result error st', Scheduler.applyStepResult result st = .error error st' → st' = st := by
  have I := EngineConfig.inv_of_run h
  have T := EngineConfig.tracked_of_run h
  refine ⟨fun id t start ranges ht hplanned => EngineConfig.contiguous_of_run h id t ht _ _ hplanned,
    fun plan st' hplan entry hentry => ?_, fun result outputs st' happly executed hexecuted
      htoken => ?_, fun r hr => ⟨I.core.identified.requestId r hr, ?_⟩, fun st' hplans => ?_,
    fun result error st' happly => ?_⟩
  · have hrun := h.snoc (.planStep hplan)
    have I' := EngineConfig.inv_of_run hrun
    have T' := EngineConfig.tracked_of_run hrun
    have hinFlight : st'.1.inFlight = some plan := by
      have heffect := (Step.planStep hplan).effect I
      generalize decision st st' = d at heffect
      cases heffect
      rfl
    rw [I'.entries plan hinFlight] at hentry
    obtain ⟨seq, hseq, rfl⟩ := List.mem_map.mp hentry
    obtain ⟨hseq, hscheduled⟩ := List.mem_filter.mp hseq
    obtain ⟨t, ht, hruns⟩ := T'.running seq hseq
    rw [Scheduler.reach, hinFlight] at hruns
    obtain ⟨u, start, ranges, hu, hlast⟩ := T'.inFlight plan hinFlight seq hseq hscheduled
    obtain rfl : t = u := Option.some.inj (ht.symm.trans hu)
    refine ⟨t, ht, hruns.accounts (I'.core.running seq hseq) (I'.work plan hinFlight seq hseq)
      hscheduled ?_ ⟨start, ranges, hlast⟩⟩
    exact I'.core.identified.requestId seq.request
      (List.mem_map_of_mem (List.mem_append_left _ hseq))
  · have heffect := (Step.applyStepResult happly).effect I
    generalize outputs = o at heffect
    cases heffect with
    | applied haccepts A =>
      obtain ⟨plan, hinFlight, -, hmatches⟩ := haccepts
      obtain ⟨seq, hseq, hmatch⟩ := exists_of_forall₂ hmatches hexecuted
      have hseq := List.mem_of_mem_filter hseq
      obtain ⟨t, ht, hruns⟩ := T.running seq hseq
      rw [Scheduler.reach, hinFlight] at hruns
      obtain ⟨start, ranges, hplanned, hcontiguous⟩ := hruns.planned
      have hends : seq.numCachedTokens + seq.numScheduledTokens = seq.numTokens :=
        of_decide_eq_true (hmatch.token.symm.trans htoken)
      have htokens : seq.tokenIds = t.history := hruns.of.tokenIds
      refine ⟨t, start, ranges, hmatch.seqId ▸ ht, hplanned, ?_⟩
      rw [← htokens, ← (I.core.running seq hseq).numTokens, ← hends]
      exact hcontiguous
  · obtain ⟨seq, hseq, rfl⟩ := List.mem_map.mp hr
    rcases List.mem_append.mp hseq with hseq | hseq
    · obtain ⟨t, ht, hruns⟩ := T.running seq hseq
      exact ⟨t, ht, hruns.of⟩
    · obtain ⟨t, ht, hwaits⟩ := T.waiting seq hseq
      exact ⟨t, ht, hwaits.of⟩
  · rcases hplans.selected I with rfl | ⟨n, kv₁, kept, admitted, s, S, hconfig⟩
    · exact .refl _
    · rw [hconfig]
      exact S.requests
  · have heffect := (Step.applyStepResultFails happly).effect I
    cases heffect
    rfl

omit [HashFunction] in
/-- A prompt of three tokens, planned in two steps of two tokens and one token. -/
theorem token_ranges_twoRequests :
    letI := constantHash
    ∃ t start ranges, track 0 (performAll (EngineConfig.plain 2 2 1).initial (twoRequests ++
        [.planStep, .applyStepResult ⟨0, [⟨0, 0, none⟩]⟩, .planStep])).1 = some t ∧
      t.planned = some (start, ranges) ∧ ranges.map (·.len) = [2, 1] ∧
      ∃ stop, Contiguous start ranges stop := by
  let _ := constantHash
  have h := EngineConfig.token_ranges (EngineConfig.plain 2 2 1) (run_performAll (twoRequests ++
    [.planStep, .applyStepResult ⟨0, [⟨0, 0, none⟩]⟩, .planStep]) _)
  have htrack : (track 0 (performAll (EngineConfig.plain 2 2 1).initial (twoRequests ++
      [.planStep, .applyStepResult ⟨0, [⟨0, 0, none⟩]⟩, .planStep])).1).bind (fun t =>
        t.planned.map fun planned => planned.2.map (·.len)) = some [2, 1] := by decide +kernel
  obtain ⟨t, ht, hlens⟩ := Option.bind_eq_some_iff.mp htrack
  obtain ⟨⟨start, ranges⟩, hplanned, hranges⟩ := Option.map_eq_some_iff.mp hlens
  exact ⟨t, start, ranges, ht, hplanned, hranges, h.1 0 t start ranges ht hplanned⟩

end VllmOxide
