import VllmOxide.Llm.Initialization
import VllmOxide.System.Order

/-!
# The outcomes of planning

In an ordered state without a plan in flight, with at least one token and one sequence to a step,
planning fails only for the oldest request, and only when this request alone needs more blocks
than the pool has. Otherwise it returns a plan as long as a request is live.

## Main definitions

* `IsOldest`: the live request with the smallest id.
* `Request.Fits`: a live request that was accepted for a model length.

## Main results

* `EngineConfig.planner_complete`: the outcomes of `planStep`.
* `EngineConfig.oldest_planned`: with two tokens to a step the oldest request is in every plan.
-/

namespace VllmOxide

/-- The number of blocks that the history of a request takes. -/
def Request.numBlocks (r : Request) : ℕ :=
  (r.numTokens + (BLOCK_SIZE - 1)) / BLOCK_SIZE

/-- The live request with the smallest id. -/
def IsOldest (s : Scheduler) (r : Request) : Prop :=
  r ∈ s.requests ∧ ∀ r' ∈ s.requests, r.seqId ≤ r'.seqId

/-- Distinct blocks in range are at most as many as there are blocks. -/
theorem length_le_of_nodup (table : List ℕ) {n : ℕ} (hnodup : table.Nodup)
    (hlt : ∀ b ∈ table, b < n) : table.length ≤ n := by
  have hsub : table ⊆ List.range n := fun b hb => List.mem_range.mpr (hlt b hb)
  simpa using (List.subperm_of_subset hnodup hsub).length_le

/-- In an ordered state the oldest request is the first one. -/
theorem Ordered.head_eq {s : Scheduler} (h : Ordered s) {r : Request} :
    s.requests.head? = some r ↔ IsOldest s r := by
  have hsorted := h.sorted
  rw [Scheduler.ids_eq] at hsorted
  constructor
  · intro hhead
    obtain ⟨rest, hrest⟩ : ∃ rest, s.requests = r :: rest := by
      cases hs : s.requests with
      | nil => simp [hs] at hhead
      | cons q rest => exact ⟨rest, by rw [hs] at hhead; simpa using hhead⟩
    rw [hrest, List.map_cons, List.pairwise_cons] at hsorted
    refine ⟨hrest ▸ List.mem_cons_self, fun r' hr' => ?_⟩
    rw [hrest] at hr'
    rcases List.mem_cons.mp hr' with rfl | hr'
    · exact le_refl _
    · exact (hsorted.1 _ (List.mem_map_of_mem hr')).le
  · rintro ⟨hr, hle⟩
    cases hs : s.requests with
    | nil => rw [hs] at hr; cases hr
    | cons q rest =>
      rw [hs] at hr hle hsorted
      rw [List.map_cons, List.pairwise_cons] at hsorted
      rcases List.mem_cons.mp hr with rfl | hr
      · rfl
      · exact absurd (hsorted.1 _ (List.mem_map_of_mem hr))
          (not_lt.mpr (hle q List.mem_cons_self))

theorem Scheduler.isRunning_iff {s : Scheduler} : s.isRunning = true ↔ s.requests ≠ [] := by
  simp [Scheduler.isRunning, Scheduler.requests]
  tauto

variable [HashFunction]

section Large

variable {s s' : Scheduler} {kv kv₁ kv' : BlockPool} {n : ℕ} {kept admitted : List Sequence}

/-- The table of a running sequence is no longer than the pool. -/
theorem Core.length_table_le (C : Core s kv) {seq : Sequence} (hseq : seq ∈ s.running) :
    seq.blockTable.length ≤ kv.blocks.length :=
  length_le_of_nodup _ (C.pool.nodup _ (List.mem_map_of_mem (f := Sequence.holder) hseq))
    fun _ hb => C.pool.ledger.lt_length (BlockPool.Invariant.holders_ne_zero
      (List.mem_map_of_mem (f := Sequence.holder) hseq) hb)

/-- A table that a younger sequence runs next to does not hold every block. -/
theorem Core.length_table_lt (C : Core s kv) {o q : Sequence} {rest : List Sequence}
    (hrunning : s.running = o :: q :: rest) : o.blockTable.length < kv.blocks.length := by
  have ho : o ∈ s.running := by simp [hrunning]
  have hq : q ∈ s.running := by simp [hrunning]
  obtain ⟨b, hb, hnot⟩ := C.ownBlock [o.blockTable] q.blockTable (rest.map (·.blockTable))
    (by simp [hrunning])
  replace hnot := hnot o.blockTable List.mem_cons_self
  exact length_le_of_nodup (b :: o.blockTable)
    (List.nodup_cons.mpr ⟨hnot, C.pool.nodup _ (List.mem_map_of_mem (f := Sequence.holder) ho)⟩)
    (by
      rintro c (_ | ⟨_, hc⟩)
      · exact C.pool.ledger.lt_length (BlockPool.Invariant.holders_ne_zero
          (List.mem_map_of_mem (f := Sequence.holder) hq) hb)
      · exact C.pool.ledger.lt_length (BlockPool.Invariant.holders_ne_zero
          (List.mem_map_of_mem (f := Sequence.holder) ho) hc))

/-- The oldest running sequence misses a block that the pool does not have only if it runs
alone. -/
theorem Core.alone_of_large (C : Core s kv) {o : Sequence} {rest : List Sequence}
    (hrunning : s.running = o :: rest) (hlarge : kv.blocks.length < o.numBlocks) :
    rest = [] := by
  have hready := (C.running o (by simp [hrunning])).ready.le_table
  cases rest with
  | nil => rfl
  | cons q rest =>
    have hlt := C.length_table_lt hrunning
    omega

/-- If the oldest request needs more blocks than the pool has, nothing has work. -/
theorem Core.idle_of_large (C : Core s kv) (hwork : ∀ seq ∈ s.running, seq.WorkOk) {r : Request}
    (hhead : s.requests.head? = some r) (hlarge : kv.blocks.length < r.numBlocks) :
    ∀ seq ∈ s.running, seq.numScheduledTokens = 0 := by
  cases hrunning : s.running with
  | nil => simp
  | cons o rest =>
    have ho : o ∈ s.running := by simp [hrunning]
    obtain rfl : o.request = r := by simpa [Scheduler.requests, hrunning] using hhead
    obtain rfl := C.alone_of_large hrunning hlarge
    intro seq hseq
    obtain rfl := List.mem_singleton.mp hseq
    by_contra hne
    have htable := (hwork seq ho).table (Nat.pos_of_ne_zero hne)
    have hle := C.length_table_le ho
    have hblocks : seq.request.numBlocks = seq.numBlocks := rfl
    omega

/-- With nothing running the whole pool is free. -/
theorem Core.length_free_of_idle (C : Core s kv) (hrunning : s.running = []) :
    kv.freeBlockIds.length = kv.blocks.length := by
  rw [C.length_free, hrunning, List.map_nil, freeBlocks]
  simp

/-- A request that cannot be allocated needs more blocks than are free. -/
theorem BlockPool.lt_numBlocks_of_canAllocate {pool : BlockPool} {seq : Sequence}
    (h : pool.canAllocate seq = none) : pool.freeBlockIds.length < seq.numBlocks := by
  unfold BlockPool.canAllocate at h
  split at h
  · cases h
  · split at h
    · split at h
      · cases h
      · omega
    · dsimp only at h
      split at h
      · omega
      · cases h

/-- If nothing has work although something is live, the oldest request needs more blocks than the
pool has. -/
theorem Selected.large_of_idle (S : Selected s kv n kv₁ kept admitted s' kv') (hordered : Ordered s)
    (htokens : 0 < s.maxNumBatchedTokens.val) (hseqs : 0 < s.maxNumSeqs.val)
    (hnone : ∀ seq ∈ s'.running, seq.numScheduledTokens = 0) (hlive : s'.isRunning = true) :
    ∃ r, s.requests.head? = some r ∧ kv.blocks.length < r.numBlocks := by
  have hadmitted : admitted = [] := by
    refine List.eq_nil_iff_forall_not_mem.mpr fun seq hseq => ?_
    have hpos := (S.fresh seq hseq).scheduled_pos
    have hzero := hnone seq (by rw [S.running]; exact List.mem_append_right _ hseq)
    omega
  have hkept : kept = [] := by
    by_contra hne
    by_cases hbudget : (s.preemptTo n).runningBudget kv₁ = 0
    · exact S.reserved htokens hbudget hordered.waiting_pos hne hadmitted
    · obtain ⟨first, rest, hfirst⟩ := List.exists_cons_of_ne_nil hne
      have hpos := S.oldest (Nat.pos_of_ne_zero hbudget) first (by rw [hfirst]; rfl)
      have hzero := hnone first (by rw [S.running, hfirst]; simp)
      omega
  obtain ⟨hwaiting, -, hstop⟩ := S.idle hkept hadmitted hordered.waiting_pos
  have hrunning : (s.preemptTo n).running = [] := by
    have hlength := S.length_kept
    rw [hkept] at hlength
    rw [Scheduler.preemptTo_running, ← hlength]
    rfl
  have hne : (s.preemptTo n).waiting ≠ [] := by
    intro hnil
    rw [Scheduler.isRunning, S.running, hkept, hadmitted, hwaiting, hnil] at hlive
    simp at hlive
  rcases hstop with h | h | ⟨w, tail, hw, h⟩
  · exact absurd h hne
  · omega
  · have hcan := h.resolve_left (by omega)
    refine ⟨w.request, ?_, ?_⟩
    · rw [← s.requests_preemptTo n, Scheduler.requests, hrunning, hw]
      rfl
    · rw [← S.same.length, ← S.core₁.length_free_of_idle hrunning]
      exact BlockPool.lt_numBlocks_of_canAllocate hcan

/-- A sequence that runs alone and leaves no block free holds every block. -/
theorem Core.length_le_of_full (C : Core s kv) {o : Sequence} (hrunning : s.running = [o])
    (hfull : kv.freeBlockIds = []) : kv.blocks.length ≤ o.blockTable.length := by
  have hsub : List.range kv.blocks.length ⊆ o.blockTable := by
    intro b hb
    by_contra hnot
    have hmem : b ∈ kv.freeBlockIds := by
      rw [C.pool.ledger.mem_free]
      refine ⟨List.mem_range.mp hb, ?_⟩
      simp [Scheduler.holders, hrunning, Sequence.holder, hnot]
    rw [hfull] at hmem
    cases hmem
  simpa using (List.subperm_of_subset List.nodup_range hsub).length_le

/-- A sequence that runs alone and does not fit needs more blocks than the pool has. -/
theorem Core.large_of_not_fits (C : Core s kv) {o : Sequence} (hrunning : s.running = [o])
    (hfits : ¬ s.DecodeFits kv) : kv.blocks.length < o.numBlocks := by
  have ho : o ∈ s.running := by simp [hrunning]
  have hbatch : Scheduler.decodeBatch (s.runningBudget kv) s.running = [o] := by
    rw [hrunning]
    simp only [Scheduler.decodeBatch]
    split
    · rfl
    · rename_i hdecode
      refine absurd ?_ hfits
      rw [Scheduler.DecodeFits, hrunning]
      simp [Scheduler.decodeBatch, hdecode, BlockPool.canAppendBatch, BlockPool.requiredBlocks]
  rw [Scheduler.DecodeFits, hbatch, kv.canAppendBatch_eq
    (fun seq hseq => List.mem_singleton.mp hseq ▸ (C.running o ho).ready)
    (by simp [USIZE_MAX])] at hfits
  simp only [missingBlocks_cons, missingBlocks_nil, Nat.add_zero, decide_eq_true_eq,
    not_le] at hfits
  have hready := (C.running o ho).ready.le_table
  have hle := C.length_le_of_full hrunning (List.length_eq_zero_iff.mp (by omega))
  omega

end Large

/-! ### The outcomes -/

omit [HashFunction] in
/-- The oldest request needs more blocks than the pool has. -/
def TooLarge (st : EngineState) : Prop :=
  ∃ r, IsOldest st.1 r ∧ st.2.blocks.length < r.numBlocks

/-- The oldest running sequence is not preempted unless it is too large. -/
theorem Selected.pos_of_not_large {st : EngineState} {s : Scheduler} {kv₁ kv' : BlockPool} {n : ℕ}
    {kept admitted : List Sequence} (S : Selected st.1 st.2 n kv₁ kept admitted s kv')
    (hordered : Ordered st.1) (hlarge : ¬ TooLarge st) (hrunning : st.1.running ≠ []) : 0 < n := by
  rcases Nat.eq_zero_or_pos n with rfl | hpos
  · obtain ⟨o, rest, ho⟩ := List.exists_cons_of_ne_nil hrunning
    rcases S.last with ⟨hlen, -⟩ | ⟨kv₂, -, C₂, hsame, hfits⟩
    · rw [ho] at hlen
      simp at hlen
    · refine absurd ⟨o.request, hordered.head_eq.mp ?_, ?_⟩ hlarge
      · simp [Scheduler.requests, ho]
      · have h := C₂.large_of_not_fits (o := o) (by simp [ho]) hfits
        rw [hsame.length] at h
        exact h
  · exact hpos

/-- The outcomes of planning without a plan in flight. -/
inductive Outcome (st : EngineState) (s : Scheduler) (kv : BlockPool) : Prop
  | idle (hlive : st.1.isRunning = false) (h : Scheduler.planStep st = .ok none (s, kv))
  | noProgress (hlive : st.1.isRunning = true) (hlarge : TooLarge st)
      (waiting running budget free : ℕ) (blocked : Option BlockedAdmission)
      (h : Scheduler.planStep st =
        .error (.noProgress waiting running budget free blocked) (s, kv))
  | planned (hlive : st.1.isRunning = true) (hlarge : ¬ TooLarge st) (plan : StepPlan)
      (hsequences : plan.sequences = plannedEntries kv s.running) (hne : plan.sequences ≠ [])
      (h : Scheduler.planStep st = .ok (some plan)
        ({ s with nextPlanId := s.nextPlanId + 1, inFlight := some plan }, kv))

/-- **Planning** in an ordered state whose numbers fit their machine integers. -/
theorem Inv.outcome {st : EngineState} (I : Inv st.1 st.2) (hordered : Ordered st.1)
    (htokens : 0 < st.1.maxNumBatchedTokens.val) (hseqs : 0 < st.1.maxNumSeqs.val)
    (hinFlight : st.1.inFlight = none) (hfits : Representable st.1 st.2) :
    ∃ n kv₁ kept admitted s kv', Selected st.1 st.2 n kv₁ kept admitted s kv' ∧
      Outcome st s kv' := by
  obtain ⟨n, kv₁, kept, admitted, s, kv', S, P⟩ := I.core.planStep hinFlight
  have hrequests := S.ordered hordered.waiting_pos
  have hrunning : s.isRunning = st.1.isRunning := by
    rw [Bool.eq_iff_iff, Scheduler.isRunning_iff, Scheduler.isRunning_iff, hrequests]
  refine ⟨n, kv₁, kept, admitted, s, kv', S, ?_⟩
  generalize hresult : Scheduler.planStep (st.1, st.2) = result at P
  cases P with
  | idle hnone hlive => exact .idle (hrunning ▸ hlive) hresult
  | noProgress hnone hlive waiting running budget free blocked =>
    obtain ⟨r, hhead, hlarge⟩ := S.large_of_idle hordered htokens hseqs
      (plannedEntries_eq_nil_iff.mp hnone) hlive
    exact .noProgress (hrunning ▸ hlive) ⟨r, hordered.head_eq.mp hhead, hlarge⟩ _ _ _ _ _ hresult
  | unrepresentable error h =>
    exact absurd (hfits.congr S.requests S.content.length) h
  | planned plan hsequences hne hid hslots hlengths =>
    have hsome : s.running ≠ [] := by
      rintro hnil
      rw [hsequences, hnil] at hne
      exact hne rfl
    refine .planned ?_ ?_ plan hsequences hne hresult
    · rw [← hrunning, Scheduler.isRunning]
      simp [hsome]
    · rintro ⟨r, hr, hlarge⟩
      have hhead := hordered.head_eq.mpr hr
      rw [← hrequests] at hhead
      have hidle := S.core.idle_of_large S.work hhead (S.content.length.symm ▸ hlarge)
      exact hne (hsequences.trans (plannedEntries_eq_nil_iff.mpr hidle))

/-! ### Requests accepted for a model length -/

omit [HashFunction] in
/-- An accepted prompt fits the model length together with its completion. -/
def Event.Within (maxModelLen : ℕ) (e : Event) : Prop :=
  e.AcceptsIf fun promptTokenIds params => promptTokenIds.length + params.maxTokens ≤ maxModelLen

omit [HashFunction] in
/-- A live request that was accepted for a model length: it has no token yet, or is not at its
limit. -/
structure Request.Fits (maxModelLen : ℕ) (r : Request) : Prop where
  limit : r.numPromptTokens + r.samplingParams.maxTokens ≤ maxModelLen
  open_ : r.numTokens = r.numPromptTokens ∨
    r.numTokens < r.numPromptTokens + r.samplingParams.maxTokens

omit [HashFunction] in
theorem Request.Fits.le {maxModelLen : ℕ} {r : Request} (h : r.Fits maxModelLen) :
    r.numTokens ≤ maxModelLen := by
  have hlimit := h.limit
  rcases h.open_ with hopen | hopen <;> omega

/-- Every live request was accepted for the model length. -/
theorem EngineConfig.fits_of_run {config : EngineConfig} {log : List Event} {st : EngineState}
    {maxModelLen : ℕ} (h : Run Step config.initial log st)
    (hwithin : ∀ e ∈ log, e.Within maxModelLen) : ∀ r ∈ st.1.requests, r.Fits maxModelLen := by
  refine EngineConfig.forall_requests h hwithin (fun _ _ _ _ hlimit => ⟨hlimit, .inl rfl⟩) ?_
  intro results seq seq' _ _ hfits hstepped hfin
  rcases hstepped with ⟨-, rfl⟩ | ⟨-, executed, -, -, rfl⟩
  · exact hfits
  · cases htoken : executed.sampledToken with
    | none => exact ⟨hfits.limit, by simpa [Sequence.request, Sequence.applied] using hfits.open_⟩
    | some tokenId =>
      rw [htoken] at hfin
      have hstop : seq.stopsAt config.eosTokenIds tokenId = false := by
        by_contra hstop
        simp [Sequence.isFinished, Sequence.applied, hstop] at hfin
      simp only [Sequence.stopsAt, Scheduler.hitsStop, Bool.or_eq_false_iff,
        decide_eq_false_iff_not, not_le] at hstop
      have hlt : seq.numTokens + 1 - seq.numPromptTokens < seq.samplingParams.maxTokens := hstop.1
      refine ⟨hfits.limit, .inr ?_⟩
      show seq.numTokens + 1 < seq.numPromptTokens + seq.samplingParams.maxTokens
      omega

omit [HashFunction] in
/-- A request that fits the model length fits a pool that holds the model length. -/
theorem not_tooLarge {st : EngineState} {maxModelLen : ℕ}
    (hfits : ∀ r ∈ st.1.requests, r.Fits maxModelLen)
    (hpool : divCeil maxModelLen BLOCK_SIZE ≤ st.2.blocks.length) : ¬ TooLarge st := by
  rintro ⟨r, ⟨hr, -⟩, hlarge⟩
  have hle := (hfits r hr).le
  have hlen := le_mul_divCeil maxModelLen BLOCK_SIZE (by simp [BLOCK_SIZE])
  have hmul := Nat.mul_le_mul_left BLOCK_SIZE hpool
  simp only [Request.numBlocks, BLOCK_SIZE] at *
  omega

/-- **Planner completeness.** Without a plan in flight, and with lengths and ids that fit their
machine integers, `planStep` fails only with `noProgress`, and that exactly when the oldest request
needs more blocks than the pool has; it returns no plan exactly when nothing is live. A pool that
holds the model length, as `fromBudget` plans it, never fails for requests accepted for that
length. -/
theorem EngineConfig.planner_complete (config : EngineConfig) {log : List Event}
    {st : EngineState} (h : Run Step config.initial log st) (hprompts : ∀ e ∈ log, e.Prompted)
    (htokens : 1 ≤ config.maxNumBatchedTokens.val) (hseqs : 1 ≤ config.maxNumSeqs.val)
    (hinFlight : st.1.inFlight = none) (hfits : Representable st.1 st.2) :
    (∀ error st', Scheduler.planStep st = .error error st' →
      ∃ waiting running budget free blocked,
        error = .noProgress waiting running budget free blocked) ∧
    ((∃ st', Scheduler.planStep st = .ok none st') ↔ st.1.requests = []) ∧
    ((∃ waiting running budget free blocked st', Scheduler.planStep st =
        .error (.noProgress waiting running budget free blocked) st') ↔
      ∃ r, IsOldest st.1 r ∧ config.numBlocks.val < r.numBlocks) ∧
    (∀ maxModelLen, (∀ e ∈ log, e.Within maxModelLen) →
      divCeil maxModelLen BLOCK_SIZE ≤ config.numBlocks.val →
      ∃ plan st', Scheduler.planStep st = .ok plan st') ∧
    ∀ geometry availableBytes gpuMemoryUtilization maxModelLen plan,
      KvCachePlan.fromBudget geometry availableBytes gpuMemoryUtilization maxModelLen = .ok plan →
      divCeil maxModelLen geometry.blockSize ≤ plan.numBlocks := by
  have hgoverns := EngineConfig.governs_of_run h
  have hlength := hgoverns.length
  have hempty : st.1.isRunning = false ↔ st.1.requests = [] := by
    rw [← not_iff_not, Bool.not_eq_false, Scheduler.isRunning_iff]
  obtain ⟨n, kv₁, kept, admitted, s, kv', -, O⟩ := (EngineConfig.inv_of_run h).outcome
    (EngineConfig.ordered_of_run h hprompts) (by rw [hgoverns.maxNumBatchedTokens]; exact htokens)
    (by rw [hgoverns.maxNumSeqs]; exact hseqs) hinFlight hfits
  have hlarge : (∃ r, IsOldest st.1 r ∧ config.numBlocks.val < r.numBlocks) ↔ TooLarge st := by
    rw [TooLarge, hlength]
  rw [hlarge, ← hempty]
  refine ⟨?_, ?_, ?_, fun maxModelLen hwithin hpool => ?_, fun _ _ _ _ _ =>
    KvCachePlan.required_le_numBlocks⟩
  · intro error st' herror
    cases O with
    | idle _ h | planned _ _ _ _ _ h => rw [h] at herror; cases herror
    | noProgress _ _ _ _ _ _ _ h =>
      rw [h] at herror
      cases herror
      exact ⟨_, _, _, _, _, rfl⟩
  · cases O with
    | idle hlive h => exact ⟨fun _ => hlive, fun _ => ⟨_, h⟩⟩
    | noProgress hlive _ _ _ _ _ _ h => simp [h, hlive]
    | planned hlive _ _ _ _ h => simp [h, hlive]
  · cases O with
    | idle hlive h =>
      refine ⟨fun ⟨_, _, _, _, _, _, herror⟩ => ?_, fun ⟨r, hr, _⟩ => ?_⟩
      · rw [h] at herror
        cases herror
      · exact absurd hr.1 (by simp [hempty.mp hlive])
    | noProgress _ hlarge _ _ _ _ _ h =>
      exact ⟨fun _ => hlarge, fun _ => ⟨_, _, _, _, _, _, h⟩⟩
    | planned _ hlarge _ _ _ h =>
      refine ⟨fun ⟨_, _, _, _, _, _, herror⟩ => ?_, fun h => absurd h hlarge⟩
      rw [h] at herror
      cases herror
  · have hsmall := not_tooLarge (EngineConfig.fits_of_run h hwithin) (hlength.symm ▸ hpool)
    cases O with
    | idle _ h | planned _ _ _ _ _ h => exact ⟨_, _, h⟩
    | noProgress _ hlarge => exact absurd hlarge hsmall

omit [HashFunction] in
/-- Planning does not fail for two requests in a pool with a block for each of them. -/
theorem planner_complete_twoRequests :
    letI := constantHash
    ∃ plan st', Scheduler.planStep (performAll (EngineConfig.plain 2 8 2).initial twoRequests).2 =
      .ok plan st' := by
  let _ := constantHash
  have h := EngineConfig.planner_complete (EngineConfig.plain 2 8 2)
    (run_performAll twoRequests _) (acceptsIf_performAll (fun _ _ h => (of_mem_twoRequests h).1) _)
    (by simp [EngineConfig.plain, Usize.clamp, USIZE_MAX])
    (by simp [EngineConfig.plain, Usize.clamp, USIZE_MAX]) rfl
    ⟨by decide +kernel, by decide +kernel⟩
  exact h.2.2.2.1 5 (acceptsIf_performAll (fun _ _ h => (of_mem_twoRequests h).2.1) _)
    (by simp [EngineConfig.plain, Usize.clamp, USIZE_MAX, divCeil, BLOCK_SIZE])

end VllmOxide
