import VllmOxide.System.Termination

/-!
# A livelock with a budget of one token

With one token to a step, two sequences and two blocks, two requests can block each other: a long
one that fills a block with its prompt and wants to go on, and a short one with a prompt of two
tokens. As soon as the long request needs its second block, the short one is preempted. It is the
head of the queue then and can be admitted again, so it gets the only token, with the block that
was made free. It is preempted again before it could get its second token.

## Main definitions

* `Stuck`: the states that this engine does not leave.

## Main results

* `Stuck.round`: a round of a stuck state leads to a stuck state.
* `Stuck.livelock`: there is an infinite sequence of rounds.
-/

namespace VllmOxide

/-- A request whose prompt fills a block, with at most one of its two tokens sampled. -/
structure Sequence.FillsBlock (seq : Sequence) : Prop where
  prompt : seq.numPromptTokens = BLOCK_SIZE
  limit : seq.samplingParams.maxTokens = 2
  progress : seq.numTokens = BLOCK_SIZE ∨
    seq.numTokens = BLOCK_SIZE + 1 ∧ seq.numCachedTokens = BLOCK_SIZE ∧ seq.blockTable.length = 1

/-- A request with a prompt of two tokens that are not both cached. -/
structure Sequence.HeldBack (seq : Sequence) : Prop where
  prompt : seq.numPromptTokens = 2
  numTokens : seq.numTokens = 2
  cached : seq.numCachedTokens ≤ 1

variable [HashFunction]

/-- Two requests of the engine with two blocks, one token to a step and two sequences. -/
structure Stuck (st : EngineState) : Prop where
  serves : (EngineConfig.plain 2 1 2).Serves 512 st
  inFlight : st.1.inFlight = none
  requests : ∃ u v, st.1.running ++ st.1.waiting = [u, v] ∧ u.FillsBlock ∧ v.HeldBack

namespace Stuck

omit [HashFunction] in
/-- Two queues with two sequences in all. -/
theorem queues_of_append {running waiting : List Sequence} {u v : Sequence}
    (h : running ++ waiting = [u, v]) :
    running = [] ∧ waiting = [u, v] ∨ running = [u] ∧ waiting = [v] ∨
      running = [u, v] ∧ waiting = [] := by
  rcases running with _ | ⟨a, _ | ⟨b, _ | ⟨c, rest⟩⟩⟩ <;> simp_all

section Selection

variable {st : EngineState} {n : ℕ} {kv₁ kv : BlockPool} {kept admitted : List Sequence}
  {s : Scheduler} {u v u' v' : Sequence}

theorem budget (h : Stuck st) : st.1.maxNumBatchedTokens.val = 1 := by
  rw [h.serves.governs.maxNumBatchedTokens]
  simp [EngineConfig.plain, Usize.clamp, USIZE_MAX]

theorem length (h : Stuck st) : st.2.blocks.length = 2 := by
  rw [h.serves.governs.length]
  simp [EngineConfig.plain, Usize.clamp, USIZE_MAX]

theorem maxNumSeqs (h : Stuck st) : st.1.maxNumSeqs.val = 2 := by
  rw [h.serves.governs.maxNumSeqs]
  simp [EngineConfig.plain, Usize.clamp, USIZE_MAX]

theorem preempted_budget_le (h : Stuck st) :
    (st.1.preemptTo n).runningBudget kv₁ ≤ 1 := by
  refine ((st.1.preemptTo n).runningBudget_le kv₁).trans ?_
  rw [← h.budget]
  rfl

/-- A kept sequence with the prompt of the short request was that request. -/
theorem kept_eq (S : Selected st.1 st.2 n kv₁ kept admitted s kv)
    (hsplit : st.1.running ++ st.1.waiting = [u, v]) (hu : u.FillsBlock) (hv : v.HeldBack)
    (hkept : v' ∈ kept) (hrequest : v'.request = v.request) : Kept v v' := by
  obtain ⟨q, hq, hstays⟩ := exists_of_forall₂ S.stays hkept
  have hmem : q ∈ [u, v] := hsplit ▸ List.mem_append_left _ (List.mem_of_mem_take hq)
  have hprompt : q.numPromptTokens = v.numPromptTokens :=
    congrArg Request.numPromptTokens (hstays.request.symm.trans hrequest)
  have hne : u.numPromptTokens ≠ v.numPromptTokens := by
    rw [hu.prompt, hv.prompt]
    simp [BLOCK_SIZE]
  rcases List.mem_cons.mp hmem with rfl | hmem
  · exact absurd hprompt hne
  · exact List.mem_singleton.mp hmem ▸ hstays

/-- The short request gets no second token. -/
theorem heldBack_next (h : Stuck st) (S : Selected st.1 st.2 n kv₁ kept admitted s kv)
    (hsplit : st.1.running ++ st.1.waiting = [u, v]) (hu : u.FillsBlock) (hv : v.HeldBack)
    (hrunning : s.running = [u', v']) (hrequest : v'.request = v.request) :
    v'.numCachedTokens + v'.numScheduledTokens ≤ 1 := by
  have htotal := S.total_le
  rw [hrunning, h.budget] at htotal
  simp only [List.map_cons, List.map_nil, List.sum_cons, List.sum_nil] at htotal
  have hfresh : v' ∈ admitted → v'.numCachedTokens + v'.numScheduledTokens ≤ 1 := by
    -- two tokens do not fill a block, so nothing is cached
    intro hmem
    have hadmitted := S.fresh v' hmem
    have hlt := hadmitted.prefilling.cached_lt
    have htokens : v'.numTokens = v.numTokens := congrArg Request.numTokens hrequest
    have hzero := Nat.eq_zero_of_dvd_of_lt hadmitted.cached_dvd
      (by rw [htokens, hv.numTokens] at hlt; simp only [BLOCK_SIZE]; omega)
    omega
  have hshape := S.running.symm.trans hrunning
  rcases queues_of_append hshape with ⟨-, hadmitted⟩ | ⟨-, hadmitted⟩ | ⟨hkept, -⟩
  · exact hfresh (by simp [hadmitted])
  · exact hfresh (by simp [hadmitted])
  · have hstays := kept_eq S hsplit hu hv (by simp [hkept]) hrequest
    have hcached := hstays.numCachedTokens.trans_le hv.cached
    have hle := S.kept_le.trans h.preempted_budget_le
    rw [hkept] at hle
    simp only [List.map_cons, List.map_nil, List.sum_cons, List.sum_nil] at hle
    rcases Nat.eq_zero_or_pos ((st.1.preemptTo n).runningBudget kv₁) with hzero | hpos
    · have hnone := S.kept_le
      rw [hzero, hkept] at hnone
      simp only [List.map_cons, List.map_nil, List.sum_cons, List.sum_nil] at hnone
      omega
    · have hfirst := S.oldest hpos u' (by rw [hkept]; rfl)
      omega

/-- The long request, once it runs, goes on to run as the first one. -/
theorem head_kept (h : Stuck st) (S : Selected st.1 st.2 n kv₁ kept admitted s kv)
    (hhead : st.1.running.head? = some u) : ∃ u' rest, kept = u' :: rest ∧ Kept u u' := by
  obtain ⟨rest, hrest⟩ : ∃ rest, st.1.running = u :: rest := by
    cases hrunning : st.1.running with
    | nil => simp [hrunning] at hhead
    | cons q rest => exact ⟨rest, by simpa [hrunning] using hhead⟩
  have hn := S.pos_of_not_large h.serves.ordered h.serves.not_tooLarge (by simp [hrest])
  have hstays := S.stays
  obtain ⟨n, rfl⟩ : ∃ m, n = m + 1 := ⟨n - 1, by omega⟩
  rw [hrest, List.take_succ_cons] at hstays
  cases hstays with
  | cons hkept _ => exact ⟨_, _, rfl, hkept⟩

/-- If only the long request stays, the token is reserved for the short one. -/
theorem reserves (h : Stuck st) (S : Selected st.1 st.2 n kv₁ kept admitted s kv)
    (hsplit : st.1.running ++ st.1.waiting = [u, v]) (hv : v.HeldBack)
    (htable : u.blockTable.length = 1) (hrunning : (st.1.preemptTo n).running = [u]) :
    (st.1.preemptTo n).reserveAdmissionToken kv₁ = true := by
  have hrequests := st.1.requests_preemptTo n
  rw [Scheduler.requests, Scheduler.requests, hrunning, hsplit] at hrequests
  obtain ⟨w, hwaiting, hw⟩ : ∃ w, (st.1.preemptTo n).waiting = [w] ∧ w.request = v.request := by
    simpa [List.map_eq_singleton_iff] using hrequests
  have htokens : w.numTokens = v.numTokens := congrArg Request.numTokens hw
  have hcan : kv₁.canAllocate w ≠ none := by
    intro hnone
    have hlt := BlockPool.lt_numBlocks_of_canAllocate hnone
    have hblocks : w.numBlocks = 1 := by
      rw [Sequence.numBlocks, htokens, hv.numTokens]
      simp [BLOCK_SIZE]
    have hle := S.core₁.length_le_of_full hrunning (List.length_eq_zero_iff.mp (by omega))
    rw [S.same.length, h.length] at hle
    omega
  have hT : (st.1.preemptTo n).maxNumBatchedTokens.val = 1 := h.budget
  have hS : (st.1.preemptTo n).maxNumSeqs.val = 2 := h.maxNumSeqs
  have hlength : (st.1.preemptTo n).running.length = 1 := by rw [hrunning]; rfl
  simp only [Scheduler.reserveAdmissionToken, Scheduler.admissionBlock, hwaiting, hT, hS, hlength,
    hcan]
  rfl

/-- The long request gets no second block, and so no work. -/
theorem fillsBlock_idle (h : Stuck st) (S : Selected st.1 st.2 n kv₁ kept admitted s kv)
    (hsplit : st.1.running ++ st.1.waiting = [u, v]) (hv : v.HeldBack)
    (hhead : st.1.running.head? = some u) (htokens : u.numTokens = BLOCK_SIZE + 1)
    (htable : u.blockTable.length = 1) {rest : List Sequence} (hkept : kept = u' :: rest)
    (hstays : Kept u u') : u'.numScheduledTokens = 0 := by
  by_contra hne
  have hrunning : s.running = u' :: (rest ++ admitted) := by rw [S.running, hkept]; rfl
  have htable' := (S.work u' (by simp [hrunning])).table (Nat.pos_of_ne_zero hne)
  have hblocks : u'.numBlocks = 2 := by
    have htokens' : u'.numTokens = u.numTokens := congrArg Request.numTokens hstays.request
    rw [Sequence.numBlocks, htokens', htokens]
    simp [BLOCK_SIZE]
  cases rest with
  | nil =>
    have hn : n = 1 := by rw [← S.length_kept, hkept]; rfl
    have hone : (st.1.preemptTo n).running = [u] := by
      rw [Scheduler.preemptTo_running, hn, List.take_one, hhead]
      rfl
    have hle := S.kept_le
    rw [hkept, Scheduler.runningBudget, reserves h S hsplit hv htable hone] at hle
    have hT : (st.1.preemptTo n).maxNumBatchedTokens.val = 1 := h.budget
    simp only [hT, if_true, List.map_cons, List.map_nil, List.sum_cons, List.sum_nil] at hle
    omega
  | cons q rest =>
    -- the short request has the other block
    have hlt := S.core.length_table_lt hrunning
    rw [S.content.length, h.length] at hlt
    omega

end Selection

/-! ### Rounds -/

section Rounds

variable {eosTokenIds : List Token} {results : List SequenceStepResult} {seq seq' : Sequence}

omit [HashFunction] in
/-- A step that fills the block, or does not, does not finish the long request. -/
theorem fillsBlock_of_stepped (h : Stepped [] results seq seq') (hok : seq.RunningOk)
    (hwork : seq.WorkOk) (hprompt : seq.numPromptTokens = BLOCK_SIZE)
    (hlimit : seq.samplingParams.maxTokens = 2) (htokens : seq.numTokens = BLOCK_SIZE) :
    seq'.FillsBlock ∧ seq'.isFinished = false := by
  have hrunning : seq.isFinished = false := by simp [Sequence.isFinished, hok.status]
  rcases h with ⟨-, rfl⟩ | ⟨hscheduled, executed, -, hmatch, rfl⟩
  · exact ⟨⟨hprompt, hlimit, .inl htokens⟩, hrunning⟩
  have htoken := hmatch.token
  cases hsampled : executed.sampledToken with
  | none =>
    refine ⟨⟨hprompt, hlimit, .inl ?_⟩, hrunning⟩
    simpa [Sequence.applied] using htokens
  | some tokenId =>
    rw [hsampled] at htoken
    have hends : seq.numCachedTokens + seq.numScheduledTokens = seq.numTokens :=
      of_decide_eq_true htoken.symm
    have htable := hwork.table (of_decide_eq_true hscheduled)
    refine ⟨⟨hprompt, hlimit, .inr ⟨?_, ?_, ?_⟩⟩, ?_⟩
    · simp [Sequence.applied, htokens]
    · simp [Sequence.applied, hends, htokens]
    · show seq.blockTable.length = 1
      rw [htable, Sequence.numBlocks, htokens]
      simp [BLOCK_SIZE]
    · have hstop : seq.stopsAt [] tokenId = false := by
        simp [Sequence.stopsAt, Scheduler.hitsStop, Sequence.appendToken,
          Sequence.numCompletionTokens, hlimit, htokens, hprompt]
      simpa [Sequence.isFinished, Sequence.applied, hstop] using hrunning

omit [HashFunction] in
/-- A step that gives the short request at most one token does not finish it. -/
theorem heldBack_of_stepped (h : Stepped eosTokenIds results seq seq') (hok : seq.RunningOk)
    (hprompt : seq.numPromptTokens = 2) (htokens : seq.numTokens = 2)
    (hle : seq.numCachedTokens + seq.numScheduledTokens ≤ 1) :
    seq'.HeldBack ∧ seq'.isFinished = false := by
  have hrunning : seq.isFinished = false := by simp [Sequence.isFinished, hok.status]
  rcases h with ⟨-, rfl⟩ | ⟨hscheduled, executed, -, hmatch, rfl⟩
  · exact ⟨⟨hprompt, htokens, by omega⟩, hrunning⟩
  have hends : seq.endsHistory = false := decide_eq_false (by omega)
  have hnone : executed.sampledToken = none := by
    have htoken := hmatch.token
    rw [hends] at htoken
    exact Option.isNone_iff_eq_none.mp (by simpa using htoken)
  rw [hnone]
  exact ⟨⟨hprompt, by simpa [Sequence.applied] using htokens, hle⟩, hrunning⟩

end Rounds

/-- **A round of a stuck state leads to a stuck state.** -/
theorem round {st st' : EngineState} (h : Stuck st) (hround : Round st st') : Stuck st' := by
  have h' := h.serves.round hround
  have hinFlight := hround.inFlight h.serves.inv
  obtain ⟨plan, st₁, result, outputs, hplan, happly⟩ := hround
  obtain ⟨n, kv₁, kept, admitted, s, kv, all, E⟩ := Round.effect h.serves.inv hplan happly
  have S := E.selected
  obtain ⟨u, v, hsplit, hu, hv⟩ := h.requests
  have hrequests := S.ordered h.serves.ordered.waiting_pos
  rw [Scheduler.requests, Scheduler.requests, hsplit] at hrequests
  obtain ⟨u', rest, hsplit', hu', hrest⟩ := List.map_eq_cons_iff.mp hrequests
  obtain ⟨v', rfl, hv'⟩ := List.map_eq_singleton_iff.mp hrest
  have heos : s.eosTokenIds = [] := by
    rw [S.config]
    exact h.serves.governs.eosTokenIds
  have hstepped := E.stepped
  rw [heos] at hstepped
  have hnext : ∀ u'', u' ∈ s.running → s.running.head? = some u' →
      Stepped [] result.sequences u' u'' → u''.FillsBlock ∧ u''.isFinished = false := by
    intro u'' hmem hfirst hstep
    have hok := S.core.running u' hmem
    have hprompt : u'.numPromptTokens = BLOCK_SIZE :=
      (congrArg Request.numPromptTokens hu').trans hu.prompt
    have hlimit : u'.samplingParams.maxTokens = 2 :=
      (congrArg (fun r => r.samplingParams.maxTokens) hu').trans hu.limit
    have htokens' : u'.numTokens = u.numTokens := congrArg Request.numTokens hu'
    rcases hu.progress with htokens | ⟨htokens, hcached, htable⟩
    · exact fillsBlock_of_stepped hstep hok (S.work u' hmem) hprompt hlimit
        (htokens'.trans htokens)
    · have hhead : st.1.running.head? = some u := by
        rcases queues_of_append hsplit with ⟨-, hwaiting⟩ | ⟨hrunning, -⟩ | ⟨hrunning, -⟩
        · have hzero := (h.serves.inv.core.waiting u (by simp [hwaiting])).cached
          rw [hzero] at hcached
          simp [BLOCK_SIZE] at hcached
        · rw [hrunning]; rfl
        · rw [hrunning]; rfl
      obtain ⟨k, rest, hkept, hstays⟩ := head_kept h S hhead
      obtain rfl : k = u' := by
        rw [S.running, hkept] at hfirst
        simpa using hfirst
      have hidle := fillsBlock_idle h S hsplit hv hhead htokens htable hkept hstays
      rcases hstep with ⟨-, rfl⟩ | ⟨hscheduled, -⟩
      · refine ⟨⟨hprompt, hlimit, .inr ⟨htokens'.trans htokens,
          hstays.numCachedTokens.trans hcached, ?_⟩⟩, by simp [Sequence.isFinished, hok.status]⟩
        rw [hstays.idle hidle]
        exact htable
      · simp [Sequence.isScheduled, hidle] at hscheduled
  have hheld : v'.numPromptTokens = 2 ∧ v'.numTokens = 2 :=
    ⟨(congrArg Request.numPromptTokens hv').trans hv.prompt,
      (congrArg Request.numTokens hv').trans hv.numTokens⟩
  refine ⟨h', hinFlight, ?_⟩
  rw [E.config]
  rcases queues_of_append hsplit' with ⟨hrunning, -⟩ | ⟨hrunning, hwaiting⟩ | ⟨hrunning, hwaiting⟩
  · obtain ⟨seq, hseq, -⟩ := E.planned
    rw [hrunning] at hseq
    cases hseq
  · rw [hrunning] at hstepped
    obtain ⟨u'', _, hstep, hnil, rfl⟩ := List.forall₂_cons_left_iff.mp hstepped
    obtain rfl := List.forall₂_nil_left_iff.mp hnil
    obtain ⟨hfills, hfin⟩ := hnext u'' (by simp [hrunning]) (by rw [hrunning]; rfl) hstep
    refine ⟨u'', v', ?_, hfills, hheld.1, hheld.2, ?_⟩
    · simp [hfin, hwaiting]
    · rw [(S.core.waiting v' (by simp [hwaiting])).cached]
      omega
  · rw [hrunning] at hstepped
    obtain ⟨u'', _, hstep, htail, rfl⟩ := List.forall₂_cons_left_iff.mp hstepped
    obtain ⟨v'', _, hstep', hnil, rfl⟩ := List.forall₂_cons_left_iff.mp htail
    obtain rfl := List.forall₂_nil_left_iff.mp hnil
    obtain ⟨hfills, hfin⟩ := hnext u'' (by simp [hrunning]) (by rw [hrunning]; rfl) hstep
    obtain ⟨hheld', hfin'⟩ := heldBack_of_stepped hstep' (S.core.running v' (by simp [hrunning]))
      hheld.1 hheld.2 (heldBack_next h S hsplit hu hv hrunning hv')
    refine ⟨u'', v'', ?_, hfills, hheld'⟩
    simp [hfin, hfin', hwaiting]

/-- There is always another round. -/
theorem exists_round {st : EngineState} (h : Stuck st) : ∃ st', Round st st' ∧ Stuck st' := by
  have hlive : st.1.isRunning = true := by
    obtain ⟨u, v, hsplit, -⟩ := h.requests
    rw [Scheduler.isRunning_iff, Scheduler.requests, hsplit]
    simp
  obtain ⟨plan, st₁, outputs, st', hplan, happly⟩ := h.serves.exists_round h.inFlight
    (by decide) (by simp [EngineConfig.plain, Usize.clamp, USIZE_MAX]) hlive fun _ => 0
  have hround : Round st st' := ⟨plan, st₁, _, outputs, hplan, happly⟩
  exact ⟨st', hround, h.round hround⟩

/-- The calls that lead to a stuck state. -/
def actions : List Action :=
  [.addRequest (List.replicate BLOCK_SIZE 0) (.limited 2), .addRequest [0, 0] (.limited 1)]

omit [HashFunction] in
theorem of_mem_actions {promptTokenIds : List Token} {params : SamplingParams}
    (h : .addRequest promptTokenIds params ∈ actions) :
    promptTokenIds.length = BLOCK_SIZE ∧ params.maxTokens = 2 ∨
      promptTokenIds.length = 2 ∧ params.maxTokens = 1 := by
  simp only [actions, List.mem_cons, Action.addRequest.injEq, List.not_mem_nil, or_false] at h
  rcases h with ⟨rfl, rfl⟩ | ⟨rfl, rfl⟩
  · exact .inl ⟨List.length_replicate, rfl⟩
  · exact .inr ⟨rfl, rfl⟩

/-- The prompts are not empty and fit the model length with their completions. -/
theorem accepts_actions (st : EngineState) : ∀ e ∈ (performAll st actions).1,
    e.Prompted ∧ e.Within 512 ∧ e.AcceptsIf fun _ params => 1 ≤ params.maxTokens := by
  intro e he
  refine ⟨acceptsIf_performAll (fun prompt params hmem => ?_) st e he,
    acceptsIf_performAll (fun prompt params hmem => ?_) st e he,
    acceptsIf_performAll (fun prompt params hmem => ?_) st e he⟩
  · rintro rfl
    have hlimits := of_mem_actions hmem
    simp [BLOCK_SIZE] at hlimits
  · have hlimits := of_mem_actions hmem
    simp only [BLOCK_SIZE] at hlimits
    omega
  · have hlimits := of_mem_actions hmem
    omega

end Stuck

/-- The engine is stuck after the two requests have been accepted. -/
theorem stuck_start : Stuck (performAll (EngineConfig.plain 2 1 2).initial Stuck.actions).2 where
  serves := by
    refine ⟨⟨_, run_performAll _ _, fun e he => ?_⟩, ?_, ?_, ?_⟩
    · have h := Stuck.accepts_actions _ e he
      exact ⟨h.1, h.2.1⟩
    · simp [EngineConfig.plain, Usize.clamp, USIZE_MAX, BLOCK_SIZE, divCeil]
    · simp [EngineConfig.plain, Usize.clamp, USIZE_MAX]
    · simp [EngineConfig.plain, Usize.clamp, USIZE_MAX]
  inFlight := rfl
  requests := ⟨_, _, rfl, ⟨List.length_replicate, rfl, .inl List.length_replicate⟩,
    ⟨rfl, rfl, Nat.zero_le _⟩⟩

omit [HashFunction] in
/-- **A livelock.** With one token to a step, two sequences, two blocks and a model length of two
blocks, two accepted requests with a limit of at least one token lead to an infinite sequence of
successful rounds. -/
theorem exists_livelock :
    letI := constantHash
    ∃ (config : EngineConfig) (log : List Event) (st : EngineState) (maxModelLen : ℕ),
      Run Step config.initial log st ∧ (∀ e ∈ log, e.Prompted) ∧
        (∀ e ∈ log, e.AcceptsIf fun _ params => 1 ≤ params.maxTokens) ∧
        (∀ e ∈ log, e.Within maxModelLen) ∧
        divCeil maxModelLen BLOCK_SIZE ≤ config.numBlocks.val ∧
        1 ≤ config.maxNumBatchedTokens.val ∧ 1 ≤ config.maxNumSeqs.val ∧ st.1.inFlight = none ∧
        ∃ rounds : ℕ → EngineState, rounds 0 = st ∧
          ∀ i, Round (rounds i) (rounds (i + 1)) := by
  let _ := constantHash
  have hstart := stuck_start
  have hserves := hstart.serves
  obtain ⟨rounds, hzero, hrounds⟩ := exists_infinite Round (fun _ => Stuck.exists_round) hstart
  have haccepts := Stuck.accepts_actions (EngineConfig.plain 2 1 2).initial
  exact ⟨.plain 2 1 2, _, _, 512, run_performAll Stuck.actions _, fun e he => (haccepts e he).1,
    fun e he => (haccepts e he).2.2, fun e he => (haccepts e he).2.1, hserves.pool,
    hserves.tokens, hserves.seqs, rfl, rounds, hzero, hrounds⟩

end VllmOxide
