import VllmOxide.Scheduling.Apply

/-!
# The operations of the scheduler under its invariant

`Inv s kv` adds the plan in flight to the invariant: it has exactly the entries of the running
sequences, so nothing moved since it was assembled. Each of the four operations has one theorem
that says what it does to a state with the invariant; every later result about runs is an
induction over these.

## Main definitions

* `Inv`: the invariant with the plan in flight.
* `Accepts`: the results that the scheduler accepts.
* `AppliesTo`: what an accepted result does to the state.

## Main results

* `Inv.addRequest`, `Inv.planStep`, `Inv.applyStepResult`, `Inv.abortAllRequests`.
-/

namespace VllmOxide

open Scheduler

theorem Identified.of_ids {requests requests' : List Request} {n : ℕ} (h : Identified requests n)
    (hids : (requests'.map fun r => (r.requestId, r.seqId)).Sublist
      (requests.map fun r => (r.requestId, r.seqId))) : Identified requests' n := by
  have hmem : ∀ r' ∈ requests', ∃ r ∈ requests, r.requestId = r'.requestId ∧ r.seqId = r'.seqId := by
    intro r' hr'
    obtain ⟨r, hr, heq⟩ := List.mem_map.mp (hids.subset (List.mem_map_of_mem hr'))
    simp only [Prod.mk.injEq] at heq
    exact ⟨r, hr, heq⟩
  have hseq : (requests'.map (·.seqId)).Sublist (requests.map (·.seqId)) := by
    have h := hids.map Prod.snd
    simpa [List.map_map, Function.comp_def] using h
  refine ⟨h.nodup.sublist hseq, fun r' hr' => ?_, fun r' hr' => ?_⟩
  · obtain ⟨r, hr, h₁, h₂⟩ := hmem r' hr'
    rw [← h₁, ← h₂]
    exact h.requestId r hr
  · obtain ⟨r, hr, -, h₂⟩ := hmem r' hr'
    exact h₂ ▸ h.lt_next r hr

/-! ### Clearing the recovery targets -/

/-- In a list with distinct ids an element is determined by its id. -/
theorem eq_of_seqId {running : List Sequence} (h : (running.map (·.seqId)).Nodup)
    {seq q : Sequence} (hseq : seq ∈ running) (hq : q ∈ running) (hid : q.seqId = seq.seqId) :
    q = seq :=
  List.inj_on_of_nodup_map h hq hseq hid

/-- Clearing the recovery targets of the executed sequences gives the applied ones. -/
theorem stepped_of_executed {eosTokenIds : List Token} {results : List SequenceStepResult}
    {running executed : List Sequence} {recovered : List ℕ}
    (h : List.Forall₂ (Executed eosTokenIds results) running executed)
    (hok : ∀ seq ∈ running, seq.RunningOk) (hnodup : (running.map (·.seqId)).Nodup)
    (hrecovered : ∀ id, id ∈ recovered ↔ ∃ seq ∈ running, seq.seqId = id ∧ seq.Recovers) :
    List.Forall₂ (Stepped eosTokenIds results) running (clearRecovered recovered executed) := by
  rw [clearRecovered, List.forall₂_map_right_iff]
  refine forall₂_imp_mem h fun seq hseq seq' hexecuted => ?_
  have hiff : seq'.seqId ∈ recovered ↔ seq.Recovers := by
    rw [hexecuted.seqId, hrecovered]
    refine ⟨fun ⟨q, hq, hid, hrec⟩ => ?_, fun hrec => ⟨seq, hseq, rfl, hrec⟩⟩
    rwa [eq_of_seqId hnodup hseq hq hid] at hrec
  rcases hexecuted with ⟨hidle, rfl⟩ | ⟨hscheduled, r, hr, hmatch, rfl⟩
  · refine .inl ⟨hidle, ?_⟩
    rw [if_neg]
    rw [hiff]
    exact fun hrec => absurd hrec.1 (by simp [hidle])
  · refine .inr ⟨hscheduled, r, hr, hmatch, ?_⟩
    rw [← Sequence.applied_of_executed eosTokenIds (hok seq hseq) hscheduled]
    simp only [hiff]

/-- What clearing the recovery targets leaves alone. -/
theorem map_clearRecovered {β : Type} {g : Sequence → β} (recovered : List ℕ)
    (executed : List Sequence)
    (hg : ∀ seq : Sequence, g { seq with recomputeTargetTokens := none } = g seq) :
    (clearRecovered recovered executed).map g = executed.map g := by
  rw [clearRecovered, List.map_map]
  refine List.map_congr_left fun seq _ => ?_
  rw [Function.comp_apply]
  split
  · exact hg seq
  · rfl

theorem filter_clearRecovered {p : Sequence → Bool} (recovered : List ℕ)
    (executed : List Sequence)
    (hp : ∀ seq : Sequence, p { seq with recomputeTargetTokens := none } = p seq) :
    (clearRecovered recovered executed).filter p = clearRecovered recovered (executed.filter p) := by
  rw [clearRecovered, List.filter_map, clearRecovered]
  congr 1
  refine List.filter_congr fun seq _ => ?_
  rw [Function.comp_apply]
  split
  · exact hp seq
  · rfl

/-- The finished sequences of the apply loop, found by their ids. -/
theorem filter_finishedIds {executed : List Sequence}
    (hnodup : (executed.map (·.seqId)).Nodup) :
    (executed.filter fun seq =>
        decide (seq.seqId ∈ (executed.filter Sequence.isFinished).map (·.seqId))) =
      executed.filter Sequence.isFinished := by
  refine List.filter_congr fun seq hseq => ?_
  rw [Bool.eq_iff_iff, decide_eq_true_eq]
  refine ⟨fun h => ?_, fun h => List.mem_map_of_mem (List.mem_filter.mpr ⟨hseq, h⟩)⟩
  obtain ⟨q, hq, hid⟩ := List.mem_map.mp h
  obtain ⟨hq, hfin⟩ := List.mem_filter.mp hq
  rwa [eq_of_seqId hnodup hseq hq hid] at hfin

variable [HashFunction]

/-- The invariant of the scheduler and the pool, with the plan in flight. -/
structure Inv (s : Scheduler) (kv : BlockPool) : Prop where
  core : Core s kv
  work : ∀ plan, s.inFlight = some plan → ∀ seq ∈ s.running, seq.WorkOk
  entries : ∀ plan, s.inFlight = some plan → plan.sequences = plannedEntries kv s.running
  planId : ∀ plan, s.inFlight = some plan → plan.id < s.nextPlanId

/-- Without a plan in flight the invariant is the one of the queues. -/
theorem Core.inv {s : Scheduler} {kv : BlockPool} (C : Core s kv) (h : s.inFlight = none) :
    Inv s kv :=
  ⟨C, by simp [h], by simp [h], by simp [h]⟩

/-- A fresh scheduler with a fresh pool. -/
theorem Inv.initial {numBlocks : ℕ} (hn : numBlocks ≤ USIZE_MAX) (enabled : Bool)
    (maxNumBatchedTokens maxNumSeqs : Usize) (eosTokenIds : List Token) :
    Inv (newWithEosTokenIds maxNumBatchedTokens maxNumSeqs eosTokenIds)
      (BlockPool.newInner numBlocks BLOCK_SIZE enabled) :=
  Core.inv
    { pool := BlockPool.Invariant.newInner hn enabled
      running := by simp [newWithEosTokenIds]
      waiting := by simp [newWithEosTokenIds]
      ownBlock := .nil
      length_le := Nat.zero_le _
      identified := ⟨by simp [newWithEosTokenIds, requests], by simp [newWithEosTokenIds, requests],
        by simp [newWithEosTokenIds, requests]⟩
      nextRequestId := rfl } rfl

/-! ### Adding a request -/

/-- **Adding a request** puts it at the end of the queue. -/
theorem Inv.addRequest {s : Scheduler} {kv : BlockPool} (I : Inv s kv)
    (promptTokenIds : List Token) (params : SamplingParams) :
    Inv (s.addRequest promptTokenIds params).2 kv := by
  have C := I.core
  refine ⟨⟨C.pool, C.running, ?_, C.ownBlock, C.length_le, ?_, ?_⟩, I.work, I.entries, I.planId⟩
  · intro seq hseq
    rcases List.mem_append.mp hseq with hseq | hseq
    · exact C.waiting seq hseq
    · obtain rfl := List.mem_singleton.mp hseq
      exact Sequence.waitingOk_new _ _ _ _
  · have hrequests : (s.addRequest promptTokenIds params).2.requests = s.requests ++
        [(Sequence.new s.nextRequestId s.nextSeqId promptTokenIds params).request] := by
      simp [Scheduler.addRequest, requests]
    obtain ⟨hnodup, hid, hlt⟩ := C.identified
    rw [hrequests]
    refine ⟨?_, fun r hr => ?_, fun r hr => ?_⟩
    · rw [List.map_append, List.nodup_append]
      refine ⟨hnodup, by simp, fun a ha b hb => ?_⟩
      obtain ⟨r, hr, rfl⟩ := List.mem_map.mp ha
      obtain rfl : b = s.nextSeqId := by simpa [Sequence.request, Sequence.new] using hb
      exact (hlt r hr).ne
    · rcases List.mem_append.mp hr with hr | hr
      · exact hid r hr
      · obtain rfl := List.mem_singleton.mp hr
        exact C.nextRequestId
    · show r.seqId < s.nextSeqId + 1
      rcases List.mem_append.mp hr with hr | hr
      · exact (hlt r hr).trans (Nat.lt_succ_self _)
      · obtain rfl := List.mem_singleton.mp hr
        exact Nat.lt_succ_self _
  · show s.nextRequestId + 1 = s.nextSeqId + 1
    rw [C.nextRequestId]

/-! ### Planning -/

/-- The state after any outcome of planning keeps the invariant. -/
theorem Planned.inv {s : Scheduler} {kv : BlockPool} (C : Core s kv)
    (hwork : ∀ seq ∈ s.running, seq.WorkOk) (hinFlight : s.inFlight = none)
    {result : EStateM.Result StepPlanError (Scheduler × BlockPool) (Option StepPlan)}
    (h : Planned s kv result) :
    ∀ s' kv', (∃ plan, result = .ok plan (s', kv')) ∨ (∃ error, result = .error error (s', kv')) →
      Inv s' kv' ∧ kv' = kv ∧ s'.running = s.running ∧ s'.waiting = s.waiting := by
  intro s' kv' hstate
  cases h with
  | idle =>
    rcases hstate with ⟨_, h⟩ | ⟨_, h⟩ <;> cases h
    exact ⟨C.inv hinFlight, rfl, rfl, rfl⟩
  | noProgress =>
    rcases hstate with ⟨_, h⟩ | ⟨_, h⟩ <;> cases h
    exact ⟨C.inv hinFlight, rfl, rfl, rfl⟩
  | unrepresentable =>
    rcases hstate with ⟨_, h⟩ | ⟨_, h⟩ <;> cases h
    exact ⟨C.inv hinFlight, rfl, rfl, rfl⟩
  | planned plan hsequences _ hid _ _ =>
    rcases hstate with ⟨_, h⟩ | ⟨_, h⟩ <;> cases h
    refine ⟨⟨⟨C.pool, C.running, C.waiting, C.ownBlock, C.length_le, C.identified,
      C.nextRequestId⟩, fun _ _ => hwork, fun plan' hplan => ?_, fun plan' hplan => ?_⟩, rfl, rfl,
      rfl⟩
    · obtain rfl := Option.some.inj hplan
      exact hsequences
    · obtain rfl := Option.some.inj hplan
      exact hid ▸ Nat.lt_succ_self _

/-! ### Applying a result -/

/-- The results that the scheduler accepts: they answer the plan in flight and match the planned
sequences. -/
def Accepts (s : Scheduler) (result : StepResult) : Prop :=
  ∃ plan, s.inFlight = some plan ∧ result.planId = plan.id ∧
    List.Forall₂ Matches (s.running.filter Sequence.isScheduled) result.sequences

/-- What an accepted result does: every running sequence becomes the corresponding member of
`all`, and the finished ones leave. -/
structure AppliesTo (s : Scheduler) (kv : BlockPool) (result : StepResult) (all : List Sequence)
    (s' : Scheduler) (kv' : BlockPool) : Prop where
  stepped : List.Forall₂ (Stepped s.eosTokenIds result.sequences) s.running all
  config : s' = { s with
    running := all.filter fun seq => !seq.isFinished
    inFlight := none }
  core : Core s' kv'
  pool : ∃ kv₁, kv₁.Invariant (all.map Sequence.holder) ∧ kv₁.SameContent kv' ∧
    Untouched (s.running.map (·.blockTable)) kv kv₁

omit [HashFunction] in
/-- The requests that stay keep their ids and their order. -/
theorem sublist_ids {s : Scheduler} {results : List SequenceStepResult} {all : List Sequence}
    {eosTokenIds : List Token} {p : Sequence → Bool}
    (h : List.Forall₂ (Stepped eosTokenIds results) s.running all) :
    (((all.filter p ++ s.waiting).map Sequence.request).map fun r =>
      (r.requestId, r.seqId)).Sublist (s.requests.map fun r => (r.requestId, r.seqId)) := by
  have hids : all.map ((fun r : Request => (r.requestId, r.seqId)) ∘ Sequence.request) =
      s.running.map ((fun r : Request => (r.requestId, r.seqId)) ∘ Sequence.request) :=
    map_eq_of_forall₂ h fun _ _ h => Prod.ext h.requestId h.seqId
  simp only [requests, List.map_append, List.map_map]
  refine List.Sublist.append_right ?_ _
  rw [← hids]
  exact List.filter_sublist.map _

/-- **Applying.** An acceptable result is applied: it succeeds and returns the outputs of the
finished sequences in running order. -/
theorem Inv.applyStepResult {s : Scheduler} {kv : BlockPool} (I : Inv s kv) {result : StepResult}
    (haccepts : Accepts s result) :
    ∃ all s' kv', Scheduler.applyStepResult result (s, kv) =
        .ok ((all.filter Sequence.isFinished).map Sequence.output) (s', kv') ∧
      AppliesTo s kv result all s' kv' := by
  have C := I.core
  obtain ⟨plan, hplan, hid, hmatches⟩ := haccepts
  have hentries := I.entries plan hplan
  have hwork := I.work plan hplan
  have hnodup : (s.running.map (·.seqId)).Nodup := by
    have h := C.identified.nodup
    rw [requests, List.map_append, List.map_append] at h
    simpa [List.map_map, Function.comp_def, Sequence.request] using (List.nodup_append.mp h).1
  have hlen : result.sequences.length = plan.sequences.length := by
    rw [hentries, plannedEntries, List.length_map]
    exact hmatches.length_eq.symm
  have hcheck : checkResults plan.id s.running (plan.sequences.zip result.sequences) = .ok () := by
    rw [hentries]
    exact (checkResults_iff plan.id kv C.running (fun seq hseq => List.mem_of_mem_filter hseq)
      hmatches.length_eq.symm).mpr hmatches
  obtain ⟨executed, kv₁, recovered, hfold, hexecuted, I₁, huntouched, hrecovered⟩ :=
    foldl_applySequence s.eosTokenIds kv [] [] [] [] C.pool C.running hwork hnodup
      hmatches
  rw [← hentries] at hfold
  simp only [List.nil_append] at hfold I₁
  have hnodup₁ : (executed.map (·.seqId)).Nodup := by
    rw [map_eq_of_forall₂ hexecuted fun _ _ h => h.seqId]
    exact hnodup
  set all := clearRecovered recovered executed with hall
  have hstepped : List.Forall₂ (Stepped s.eosTokenIds result.sequences) s.running all :=
    stepped_of_executed hexecuted C.running hnodup hrecovered
  have houtputs : (all.filter Sequence.isFinished).map Sequence.output =
      (executed.filter Sequence.isFinished).map Sequence.output := by
    rw [hall, filter_clearRecovered _ _ (fun _ => rfl), map_clearRecovered _ _ (fun _ => rfl)]
  have hkept : (all.filter fun seq => !seq.isFinished) =
      clearRecovered recovered (executed.filter fun seq => !seq.isFinished) := by
    rw [hall, filter_clearRecovered _ _ (fun _ => rfl)]
  have hholders : all.map Sequence.holder = executed.map Sequence.holder :=
    map_clearRecovered _ _ (fun _ => rfl)
  have hsplit : (executed.map Sequence.holder).Perm
      ((executed.filter Sequence.isFinished).map Sequence.holder ++
        (executed.filter fun seq => !seq.isFinished).map Sequence.holder) := by
    rw [← List.map_append]
    exact (List.filter_append_perm _ _).symm.map _
  have hlength : (executed.filter Sequence.isFinished).length ≤ USIZE_MAX :=
    (List.length_filter_le _ _).trans (hexecuted.length_eq ▸ C.length_le_usize)
  obtain ⟨kv', hrelease, I', hsame⟩ := (I₁.perm hsplit).release hlength
  have hcore : Core { s with
      running := all.filter fun seq => !seq.isFinished
      inFlight := none } kv' := by
    refine ⟨?_, fun seq' hseq' => ?_, C.waiting, ?_, ?_, C.identified.of_ids ?_, C.nextRequestId⟩
    · show kv'.Invariant ((all.filter fun seq => !seq.isFinished).map Sequence.holder)
      rw [hkept, map_clearRecovered _ _ fun _ => rfl]
      exact I'
    · obtain ⟨hmem, hfin⟩ := List.mem_filter.mp hseq'
      obtain ⟨seq, hseq, h⟩ := exists_of_forall₂ hstepped hmem
      exact h.runningOk (C.running seq hseq) (hwork seq hseq) (by simpa using hfin)
    · refine EachOwns.sublist ?_ (List.filter_sublist.map _)
      rw [map_eq_of_forall₂ hstepped fun _ _ h => h.blockTable]
      exact C.ownBlock
    · exact (List.length_filter_le _ _).trans (hstepped.length_eq ▸ C.length_le)
    · exact sublist_ids hstepped
  refine ⟨all, _, kv', ?_, hstepped, rfl, hcore, kv₁, hholders ▸ I₁, hsame, huntouched⟩
  have hfinished := filter_finishedIds hnodup₁
  have hnotfinished : (executed.filter fun seq =>
      !decide (seq.seqId ∈ (executed.filter Sequence.isFinished).map (·.seqId))) =
      executed.filter fun seq => !seq.isFinished := by
    refine List.filter_congr fun seq hseq => ?_
    have h := congrArg (seq ∈ ·) hfinished
    simp only [List.mem_filter, hseq, true_and, decide_eq_true_eq] at h
    by_cases hfin : seq.isFinished = true <;> simp_all
  simp only [Scheduler.applyStepResult, hplan, hid, hlen, ne_eq, not_true, if_false, hcheck, hfold]
  rw [houtputs, hkept]
  cases hids : (executed.filter Sequence.isFinished).map (·.seqId) with
  | nil =>
    -- nothing is finished, and releasing nothing changes nothing
    have hnil : executed.filter Sequence.isFinished = [] := List.map_eq_nil_iff.mp hids
    have hkeepall : (executed.filter fun seq => !seq.isFinished) = executed := by
      rw [List.filter_eq_self]
      intro seq hseq
      have := List.filter_eq_nil_iff.mp hnil seq hseq
      simpa using this
    rw [hnil] at hrelease
    obtain rfl : kv₁ = kv' := by
      simpa [BlockPool.deallocateBatch, BlockPool.countReleases, BlockPool.checkReleases]
        using hrelease
    rw [hkeepall]
  | cons first rest =>
    rw [hids] at hfinished hnotfinished
    simp only [hfinished, hrelease, hnotfinished]

/-- Any other result is rejected without a change. -/
theorem Inv.applyStepResult_error {s : Scheduler} {kv : BlockPool} (I : Inv s kv)
    {result : StepResult} (hrejects : ¬ Accepts s result) :
    ∃ error, Scheduler.applyStepResult result (s, kv) = .error error (s, kv) := by
  simp only [Scheduler.applyStepResult]
  cases hplan : s.inFlight with
  | none => exact ⟨_, rfl⟩
  | some plan =>
    dsimp only
    by_cases hid : result.planId ≠ plan.id
    · exact ⟨_, if_pos hid⟩
    rw [if_neg hid]
    by_cases hlen : result.sequences.length ≠ plan.sequences.length
    · exact ⟨_, if_pos hlen⟩
    rw [if_neg hlen]
    cases hcheck : checkResults plan.id s.running (plan.sequences.zip result.sequences) with
    | error error => exact ⟨error, rfl⟩
    | ok _ =>
      refine absurd ⟨plan, hplan, not_not.mp hid, ?_⟩ hrejects
      have hentries := I.entries plan hplan
      refine (checkResults_iff plan.id kv I.core.running
        (fun seq hseq => List.mem_of_mem_filter hseq) ?_).mp ?_
      · rw [not_not.mp hlen, hentries, plannedEntries, List.length_map]
      · rw [hentries] at hcheck
        exact hcheck

/-- Either way the invariant is kept. -/
theorem AppliesTo.inv {s s' : Scheduler} {kv kv' : BlockPool} {result : StepResult}
    {all : List Sequence} (h : AppliesTo s kv result all s' kv') : Inv s' kv' :=
  h.core.inv (by rw [h.config])

/-! ### Aborting -/

/-- Holders without blocks are irrelevant. -/
theorem BlockPool.Invariant.of_empty {pool : BlockPool} {hs : List Holder} (I : pool.Invariant hs)
    (h : ∀ holder ∈ hs, holder.blockTable = []) : pool.Invariant [] where
  ledger := I.ledger.congr fun b => by
    rw [tables_nil, holders_nil, eq_comm, holders_eq_zero_iff]
    intro table htable
    obtain ⟨holder, hholder, rfl⟩ := List.mem_map.mp htable
    simp [h holder hholder]
  blockSize := I.blockSize
  capacity := I.capacity
  nodup := by simp
  cached_le := by simp
  cached := by simp
  shared b hb := by simp at hb
  identities := I.identities

/-- **Aborting.** `abortAllRequests` succeeds from every state with the invariant, with or without
a plan in flight; it leaves the queues empty, no plan in flight and no block owned, and the cached
content as it was. -/
theorem Inv.abortAllRequests {s : Scheduler} {kv : BlockPool} (I : Inv s kv) :
    ∃ kv', Scheduler.abortAllRequests (s, kv) =
        .ok () ({ s with running := [], waiting := [], inFlight := none }, kv') ∧
      Inv { s with running := [], waiting := [], inFlight := none } kv' ∧
      kv.SameContent kv' := by
  have C := I.core
  have hwaiting : (s.waiting.filter fun seq => !seq.blockTable.isEmpty) = [] := by
    rw [List.filter_eq_nil_iff]
    intro seq hseq
    simp [(C.waiting seq hseq).table]
  have hsplit : s.holders.Perm
      ((s.running.filter fun seq => !seq.blockTable.isEmpty).map Sequence.holder ++
        (s.running.filter fun seq => !!seq.blockTable.isEmpty).map Sequence.holder) := by
    rw [← List.map_append]
    exact (List.filter_append_perm _ _).symm.map _
  obtain ⟨kv', hrelease, I', hsame⟩ := (C.pool.perm hsplit).release
    ((List.length_filter_le _ _).trans C.length_le_usize)
  have hempty := I'.of_empty fun holder hholder => by
    obtain ⟨seq, hseq, rfl⟩ := List.mem_map.mp hholder
    simpa [Sequence.holder] using (List.mem_filter.mp hseq).2
  have hcore : Core { s with running := [], waiting := [], inFlight := none } kv' :=
    { pool := hempty
      running := by simp
      waiting := by simp
      ownBlock := .nil
      length_le := Nat.zero_le _
      identified := C.identified.of_ids (by simp [requests])
      nextRequestId := C.nextRequestId }
  refine ⟨kv', ?_, hcore.inv rfl, hsame⟩
  simp only [Scheduler.abortAllRequests, List.filter_append, hwaiting, List.append_nil]
  cases hallocated : s.running.filter fun seq => !seq.blockTable.isEmpty with
  | nil =>
    rw [hallocated] at hrelease
    obtain rfl : kv = kv' := by
      simpa [BlockPool.deallocateBatch, BlockPool.countReleases, BlockPool.checkReleases]
        using hrelease
    rfl
  | cons first rest =>
    rw [hallocated] at hrelease
    simp only [hrelease]

end VllmOxide
