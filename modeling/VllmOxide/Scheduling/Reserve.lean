import VllmOxide.Scheduling.Admit

/-!
# Decode reservation

`scheduleRunning` spends the token budget on the running sequences in queue order;
`reserveDecodeCache` completes the tables of the selected decoders, on copies, or changes nothing.
`reserveLoop` takes admissions back from the youngest until the reservation goes through. If the
decode batch fits the blocks that are free without the admissions, it never fails.

## Main definitions

* `Rescheduled`, `Reserved`: a running sequence before and after the two steps.
* `freeBlocks`: the number of blocks that a list of tables leaves free.

## Main results

* `Core.scheduleRunning`, `missingBlocks_scheduleRunningFrom`: the selected decoders are the
  decode batch of preemption.
* `Core.reserveLoop`: the reservation succeeds.
-/

namespace VllmOxide

/-! ### Spending the budget -/

/-- A running sequence before and after it got its share of the budget. -/
structure Rescheduled (seq seq' : Sequence) : Prop where
  eq : seq' = { seq with
    numScheduledTokens := seq'.numScheduledTokens
    isPrefill := seq'.isPrefill }
  le : seq.numCachedTokens + seq'.numScheduledTokens ≤ seq.numTokens

namespace Sequence

theorem runningTokenCount_le_budget (seq : Sequence) (budget : ℕ) :
    seq.runningTokenCount budget ≤ budget := by
  unfold runningTokenCount
  split
  · exact min_le_right _ _
  · split <;> omega

theorem RunningOk.runningTokenCount_le {seq : Sequence} (h : seq.RunningOk) (budget : ℕ) :
    seq.numCachedTokens + seq.runningTokenCount budget ≤ seq.numTokens := by
  have hlt := h.cached_lt
  unfold runningTokenCount
  cases hphase : seq.phase with
  | prefill =>
    have htarget := (h.prefilling hphase).target
    dsimp only
    omega
  | decode =>
    dsimp only
    split <;> omega

theorem RunningOk.runningTokenCount_pos {seq : Sequence} (h : seq.RunningOk) {budget : ℕ}
    (hb : 0 < budget) : 0 < seq.runningTokenCount budget := by
  unfold runningTokenCount
  cases hphase : seq.phase with
  | prefill =>
    have hp := h.prefilling hphase
    have htarget := hp.target
    have hlt := hp.cached_lt
    dsimp only
    omega
  | decode => simp [hb]

theorem runningTokenCount_zero (seq : Sequence) : seq.runningTokenCount 0 = 0 :=
  Nat.le_zero.mp (seq.runningTokenCount_le_budget 0)

theorem FreshlyAdmitted.isScheduledDecode {seq : Sequence} (h : seq.FreshlyAdmitted) :
    seq.isScheduledDecode = false := by
  simp [Sequence.isScheduledDecode, h.prefilling.phase]

end Sequence

namespace Scheduler

/-- One round of the loop, in a form without the branch on an empty budget. -/
theorem scheduleRunningFrom_cons (tokenBudget scheduled : ℕ) (seq : Sequence)
    (rest : List Sequence) :
    ∃ seq', scheduleRunningFrom tokenBudget scheduled (seq :: rest) =
        seq' :: scheduleRunningFrom tokenBudget
          (scheduled + seq.runningTokenCount (tokenBudget - scheduled)) rest ∧
      seq' = { seq with
        numScheduledTokens := seq'.numScheduledTokens
        isPrefill := seq'.isPrefill } ∧
      seq'.numScheduledTokens = seq.runningTokenCount (tokenBudget - scheduled) := by
  by_cases h : tokenBudget - scheduled = 0
  · refine ⟨{ seq with numScheduledTokens := 0 }, ?_, rfl, ?_⟩
    · simp only [scheduleRunningFrom, h, if_true, seq.runningTokenCount_zero, Nat.add_zero]
    · rw [h, seq.runningTokenCount_zero]
  · refine ⟨{ seq with
      numScheduledTokens := seq.runningTokenCount (tokenBudget - scheduled)
      isPrefill := decide (seq.numCachedTokens + seq.runningTokenCount (tokenBudget - scheduled) <
        seq.prefillTargetTokens) }, ?_, rfl, rfl⟩
    simp only [scheduleRunningFrom, h, if_false]

theorem rescheduled_scheduleRunningFrom (tokenBudget : ℕ) {running : List Sequence} :
    ∀ (scheduled : ℕ), (∀ seq ∈ running, seq.RunningOk) →
      List.Forall₂ Rescheduled running (scheduleRunningFrom tokenBudget scheduled running) := by
  induction running with
  | nil => intros; exact .nil
  | cons seq rest ih =>
    intro scheduled hok
    obtain ⟨seq', heq, hseq, hn⟩ := scheduleRunningFrom_cons tokenBudget scheduled seq rest
    rw [heq]
    exact .cons ⟨hseq, hn ▸ (hok seq List.mem_cons_self).runningTokenCount_le _⟩
      (ih _ fun q hq => hok q (List.mem_cons_of_mem _ hq))

/-- The budget is not overspent. -/
theorem scheduledTokens_scheduleRunningFrom_le (tokenBudget : ℕ) (running : List Sequence) :
    ∀ (scheduled : ℕ), ((scheduleRunningFrom tokenBudget scheduled running).map
      (·.numScheduledTokens)).sum ≤ tokenBudget - scheduled := by
  induction running with
  | nil => intros; exact Nat.zero_le _
  | cons seq rest ih =>
    intro scheduled
    obtain ⟨seq', heq, -, hn⟩ := scheduleRunningFrom_cons tokenBudget scheduled seq rest
    have hrest := ih (scheduled + seq.runningTokenCount (tokenBudget - scheduled))
    have hle := seq.runningTokenCount_le_budget (tokenBudget - scheduled)
    rw [heq, List.map_cons, List.sum_cons, hn]
    omega

/-- The selected decoders miss the blocks of the decode batch that preemption looked at. -/
theorem missingBlocks_scheduleRunningFrom (tokenBudget : ℕ) (running : List Sequence) :
    ∀ (scheduled : ℕ),
      missingBlocks ((scheduleRunningFrom tokenBudget scheduled running).filter
        Sequence.isScheduledDecode) =
      missingBlocks (decodeBatch (tokenBudget - scheduled) running) := by
  induction running with
  | nil => intros; rfl
  | cons seq rest ih =>
    intro scheduled
    obtain ⟨seq', heq, hseq, hn⟩ := scheduleRunningFrom_cons tokenBudget scheduled seq rest
    have hrest := ih (scheduled + seq.runningTokenCount (tokenBudget - scheduled))
    rw [Nat.sub_add_eq] at hrest
    have hphase : seq'.phase = seq.phase := by
      rw [hseq]
      rfl
    have hmissing : seq'.numBlocks - seq'.blockTable.length =
        seq.numBlocks - seq.blockTable.length := by
      rw [hseq]
      rfl
    simp only [heq, decodeBatch, List.filter_cons, Sequence.isScheduledDecode, hn, hphase,
      decide_eq_true_eq]
    split
    · rw [missingBlocks_cons, missingBlocks_cons, hmissing]
      exact congrArg _ hrest
    · exact hrest

/-- The decode batch consists of running sequences that decode. -/
theorem of_mem_decodeBatch {running : List Sequence} {seq : Sequence} :
    ∀ {budget : ℕ}, seq ∈ decodeBatch budget running → seq ∈ running ∧ seq.phase = .decode := by
  induction running with
  | nil => intro budget h; cases h
  | cons q rest ih =>
    intro budget h
    simp only [decodeBatch] at h
    split at h
    · rename_i hdecode
      rcases List.mem_cons.mp h with rfl | h
      · exact ⟨List.mem_cons_self, hdecode.2⟩
      · exact (ih h).imp_left (List.mem_cons_of_mem _)
    · exact (ih h).imp_left (List.mem_cons_of_mem _)

theorem length_decodeBatch_le (running : List Sequence) :
    ∀ budget, (decodeBatch budget running).length ≤ running.length := by
  induction running with
  | nil => intro budget; exact le_refl _
  | cons q rest ih =>
    intro budget
    simp only [decodeBatch]
    split
    · rw [List.length_cons, List.length_cons]
      exact Nat.succ_le_succ (ih _)
    · exact (ih _).trans (Nat.le_succ _)

end Scheduler

namespace Rescheduled

variable {seq seq' : Sequence}

theorem request (h : Rescheduled seq seq') : seq'.request = seq.request := by
  rw [h.eq]
  rfl

theorem holder (h : Rescheduled seq seq') : seq'.holder = seq.holder := by
  rw [h.eq]
  rfl

theorem blockTable (h : Rescheduled seq seq') : seq'.blockTable = seq.blockTable := by
  rw [h.eq]

theorem runningOk (h : Rescheduled seq seq') (hok : seq.RunningOk) : seq'.RunningOk := by
  rw [h.eq]
  exact hok.reschedule _ _

end Rescheduled

/-! ### Reserving the append blocks -/

/-- A running sequence before and after the reservation: the table of a selected decoder is
completed, other sequences are left alone. -/
structure Reserved (seq seq' : Sequence) : Prop where
  eq : seq' = { seq with blockTable := seq'.blockTable }
  isPrefix : seq.blockTable <+: seq'.blockTable
  length : seq.isScheduledDecode = true → seq'.blockTable.length = seq.numBlocks
  other : seq.isScheduledDecode = false → seq'.blockTable = seq.blockTable

namespace Reserved

variable {seq seq' : Sequence}

theorem request (h : Reserved seq seq') : seq'.request = seq.request := by
  rw [h.eq]
  rfl

theorem runningOk (h : Reserved seq seq') (hok : seq.RunningOk) : seq'.RunningOk := by
  cases hd : seq.isScheduledDecode with
  | false =>
    have heq := h.eq
    rw [h.other hd] at heq
    rw [heq]
    exact hok
  | true =>
    have hphase : seq.phase = .decode := by
      simp only [Sequence.isScheduledDecode, decide_eq_true_eq] at hd
      exact hd.2
    have hdec := hok.decoding hphase
    have hlen := h.length hd
    have hroom := hdec.cached
    have hblocks := seq.le_numBlocks_mul
    rw [h.eq]
    refine ⟨hok.status, hok.numTokens, hok.prompt_le,
      .inr ⟨hdec.recovered, hdec.cached, hdec.prompt_le, hlen.le, ?_, ?_⟩⟩
    · show seq.numBlocks ≤ seq'.blockTable.length + 1
      omega
    · show seq.numCachedTokens ≤ BLOCK_SIZE * seq'.blockTable.length
      rw [hlen]
      omega

end Reserved

theorem writeBackTables_nil (running : List Sequence) :
    Scheduler.writeBackTables running [] = running := by
  induction running with
  | nil => rfl
  | cons seq rest ih =>
    simp only [Scheduler.writeBackTables, ih, ite_self]

/-- Writing the completed tables back reaches the selected decoders, in order. -/
theorem writeBackTables_reserved {R : Sequence → Sequence → Prop}
    (hR : ∀ seq seq', R seq seq' → seq' = { seq with blockTable := seq'.blockTable })
    {running : List Sequence} :
    ∀ {reserved : List Sequence},
      List.Forall₂ R (running.filter Sequence.isScheduledDecode) reserved →
      List.Forall₂ (fun seq seq' => (seq.isScheduledDecode = true ∧ R seq seq') ∨
          (seq.isScheduledDecode = false ∧ seq' = seq))
        running (Scheduler.writeBackTables running reserved) ∧
      (reserved ++ running.filter fun seq => !seq.isScheduledDecode).Perm
        (Scheduler.writeBackTables running reserved) := by
  induction running with
  | nil =>
    intro reserved h
    obtain rfl : reserved = [] := by simpa using h
    exact ⟨.nil, .nil⟩
  | cons seq rest ih =>
    intro reserved h
    cases hd : seq.isScheduledDecode with
    | false =>
      rw [List.filter_cons_of_neg (by simp [hd])] at h
      obtain ⟨hrel, hperm⟩ := ih h
      rw [List.filter_cons_of_pos (by simp [hd])]
      simp only [Scheduler.writeBackTables, hd, Bool.false_eq_true, if_false]
      exact ⟨.cons (.inr ⟨hd, rfl⟩) hrel, List.perm_middle.trans (hperm.cons _)⟩
    | true =>
      rw [List.filter_cons_of_pos hd] at h
      cases h with
      | @cons _ copy _ reserved hcopy hrest =>
        obtain ⟨hrel, hperm⟩ := ih hrest
        rw [List.filter_cons_of_neg (by simp [hd])]
        simp only [Scheduler.writeBackTables, hd, if_true, ← hR seq copy hcopy]
        exact ⟨.cons (.inl ⟨hd, hcopy⟩) hrel, hperm.cons _⟩

/-- The number of blocks below `capacity` that no table contains. -/
def freeBlocks (capacity : ℕ) (tables : List (List ℕ)) : ℕ :=
  (List.range capacity).countP fun b => holders tables b = 0

variable [HashFunction]

namespace Core

variable {s : Scheduler} {kv : BlockPool}

/-- The length of the free list depends on the tables only. -/
theorem length_free (C : Core s kv) :
    kv.freeBlockIds.length = freeBlocks kv.blocks.length (s.running.map (·.blockTable)) := by
  rw [C.pool.ledger.length_free, freeBlocks, Scheduler.holders, tables_map_holder]

/-- A change of the running queue that only moves scheduled work. -/
theorem reschedule (C : Core s kv) {running : List Sequence}
    (h : List.Forall₂ Rescheduled s.running running) : Core { s with running := running } kv where
  pool := by
    rw [Scheduler.holders, map_eq_of_forall₂ h fun _ _ hr => hr.holder]
    exact C.pool
  running seq' hseq' := by
    obtain ⟨seq, hseq, hr⟩ := exists_of_forall₂ h hseq'
    exact hr.runningOk (C.running seq hseq)
  waiting := C.waiting
  ownBlock := by
    rw [map_eq_of_forall₂ h fun _ _ hr => hr.blockTable]
    exact C.ownBlock
  length_le := h.length_eq ▸ C.length_le
  identified := by
    rw [Scheduler.requests, List.map_append, map_eq_of_forall₂ h fun _ _ hr => hr.request,
      ← List.map_append]
    exact C.identified
  nextRequestId := C.nextRequestId

theorem scheduleRunning (C : Core s kv) (tokenBudget : ℕ) :
    Core (s.scheduleRunning tokenBudget) kv :=
  C.reschedule (Scheduler.rescheduled_scheduleRunningFrom tokenBudget 0 C.running)

/-- The selected decoders can be given their append blocks. -/
theorem ready_of_isScheduledDecode (C : Core s kv) :
    ∀ seq ∈ s.running.filter Sequence.isScheduledDecode, seq.AppendReady :=
  fun seq hseq => (C.running seq (List.mem_of_mem_filter hseq)).ready

/-- `reserveDecodeCache` with enough free blocks. -/
theorem reserveDecodeCache (C : Core s kv)
    (hfit : missingBlocks (s.running.filter Sequence.isScheduledDecode) ≤
      kv.freeBlockIds.length) :
    ∃ running kv', Scheduler.reserveDecodeCache (s, kv) =
        .ok () ({ s with running := running }, kv') ∧
      Core { s with running := running } kv' ∧ List.Forall₂ Reserved s.running running ∧
      kv.NoNewContent kv' := by
  have hsplit : s.holders.Perm
      ((s.running.filter Sequence.isScheduledDecode).map Sequence.holder ++
        (s.running.filter fun seq => !seq.isScheduledDecode).map Sequence.holder) := by
    rw [← List.map_append]
    exact (List.filter_append_perm _ _).symm.map _
  obtain ⟨kv', reserved, hrun, hreserved, I', -, hcontent⟩ :=
    (C.pool.perm hsplit).mayAppendBatch C.ready_of_isScheduledDecode hfit
  obtain ⟨hrel, hperm⟩ := writeBackTables_reserved (fun _ _ h => Appended.eq h) hreserved
  have hsame : List.Forall₂ Reserved s.running (Scheduler.writeBackTables s.running reserved) := by
    refine hrel.imp fun seq seq' h => ?_
    rcases h with ⟨hd, h⟩ | ⟨hd, rfl⟩
    · exact ⟨h.eq, h.isPrefix, fun _ => h.length, fun hd' => by simp [hd] at hd'⟩
    · exact ⟨rfl, List.prefix_rfl, fun hd' => by simp [hd] at hd', fun _ => rfl⟩
  -- an appended block was free, so no other sequence has it
  have hfresh : ∀ seq ∈ s.running, ∀ b ∈ seq.blockTable, b ∉ kv.freeBlockIds :=
    fun seq hseq b hb hfree =>
      BlockPool.Invariant.holders_ne_zero (List.mem_map_of_mem (f := Sequence.holder) hseq) hb
        (C.pool.ledger.own_of_mem_free hfree)
  refine ⟨Scheduler.writeBackTables s.running reserved, kv', ?_, ?_, hsame, hcontent⟩
  · cases hsel : s.running.filter Sequence.isScheduledDecode with
    | nil =>
      -- nothing is selected: the empty batch is appended without a change
      rw [hsel] at hrun hreserved
      obtain rfl : reserved = [] := by simpa using hreserved
      obtain rfl : kv = kv' := by
        simpa [BlockPool.mayAppendBatch, BlockPool.appendIndices, BlockPool.checkFreeBlocks,
          BlockPool.appendBlocks] using hrun
      simp only [Scheduler.reserveDecodeCache, hsel, writeBackTables_nil]
    | cons first rest =>
      rw [hsel] at hrun
      simp only [Scheduler.reserveDecodeCache, hsel, hrun]
  · exact {
      pool := by
        rw [Scheduler.holders]
        refine I'.perm ?_
        rw [← List.map_append]
        exact hperm.map _
      running := fun seq' hseq' => by
        obtain ⟨seq, hseq, h⟩ := exists_of_forall₂ hsame hseq'
        exact h.runningOk (C.running seq hseq)
      waiting := C.waiting
      ownBlock := by
        refine C.ownBlock.grow ?_
        rw [List.forall₂_map_left_iff, List.forall₂_map_right_iff]
        refine hrel.imp fun seq seq' h => ?_
        rcases h with ⟨-, h⟩ | ⟨-, rfl⟩
        · refine ⟨h.isPrefix.subset, fun b hb => (h.fresh b hb).imp_right fun hfree => ?_⟩
          rintro _ htable hmem
          obtain ⟨q, hq, rfl⟩ := List.mem_map.mp htable
          exact hfresh q hq b hmem hfree
        · exact ⟨fun _ hb => hb, fun _ hb => .inl hb⟩
      length_le := hsame.length_eq ▸ C.length_le
      identified := by
        rw [Scheduler.requests, List.map_append, map_eq_of_forall₂ hsame fun _ _ h => h.request,
          ← List.map_append]
        exact C.identified
      nextRequestId := C.nextRequestId }

/-- `reserveDecodeCache` without enough free blocks changes nothing. -/
theorem reserveDecodeCache_error (C : Core s kv)
    (hfit : kv.freeBlockIds.length <
      missingBlocks (s.running.filter Sequence.isScheduledDecode)) :
    ∃ error, Scheduler.reserveDecodeCache (s, kv) = .error error (s, kv) := by
  have hrun := kv.mayAppendBatch_error C.ready_of_isScheduledDecode hfit
  cases hsel : s.running.filter Sequence.isScheduledDecode with
  | nil => simp [hsel] at hfit
  | cons first rest =>
    rw [hsel] at hrun
    exact ⟨.ofPool .appendAllocation first.seqId ⟨"no free blocks available"⟩, by
      simp only [Scheduler.reserveDecodeCache, hsel, hrun]⟩

/-! ### Rolling admissions back -/

omit [HashFunction] in
/-- An admission that is taken back waits again. -/
theorem rolledBack {seq : Sequence} (hok : seq.RunningOk) (h : seq.FreshlyAdmitted) :
    (BlockPool.released seq).rolledBack.WaitingOk where
  status := rfl
  numTokens := hok.numTokens
  prompt_le := hok.prompt_le
  table := rfl
  cached := rfl
  target := h.prefilling.target

/-- `rollbackLastAdmission` succeeds and keeps the invariant. -/
theorem rollbackLastAdmission (C : Core s kv) {older : List Sequence} {seq : Sequence}
    (hrunning : s.running = older ++ [seq]) (hfresh : seq.FreshlyAdmitted) :
    ∃ kv', Scheduler.rollbackLastAdmission (s, kv) = .ok ()
        ({ s with
            running := older
            waiting := (BlockPool.released seq).rolledBack :: s.waiting }, kv') ∧
      Core { s with
        running := older
        waiting := (BlockPool.released seq).rolledBack :: s.waiting } kv' ∧
      kv.SameContent kv' := by
  have hlast : s.running.getLast? = some seq := by simp [hrunning]
  have hmem : seq ∈ s.running := List.mem_of_getLast? hlast
  obtain ⟨kv', hrun, hsame, hcore⟩ := C.pop hlast
  have hdrop : s.running.dropLast = older := by simp [hrunning]
  have hcore := hcore (BlockPool.released seq).rolledBack (rolledBack (C.running seq hmem) hfresh)
    rfl
  rw [hdrop] at hcore
  exact ⟨kv', by simp only [Scheduler.rollbackLastAdmission, hlast, hrun, hdrop], hcore, hsame⟩

/-- **The reservation loop.** If the selected decoders among the sequences running before the
admissions fit the blocks that these leave free, the loop succeeds with a prefix of the
admissions, and with all of them if no decoder is selected. -/
theorem reserveLoop {m : ℕ} :
    ∀ {s : Scheduler} {kv : BlockPool} {kept admitted : List Sequence}, Core s kv →
      s.running = kept ++ admitted → admitted.length = m →
      (∀ seq ∈ admitted, seq.FreshlyAdmitted) →
      missingBlocks (kept.filter Sequence.isScheduledDecode) ≤
        freeBlocks kv.blocks.length (kept.map (·.blockTable)) →
      ∃ j kept' waiting kv', Scheduler.reserveLoop m (s, kv) =
          .ok () ({ s with running := kept' ++ admitted.take j, waiting := waiting }, kv') ∧
        Core { s with running := kept' ++ admitted.take j, waiting := waiting } kv' ∧
        List.Forall₂ Reserved kept kept' ∧
        ({ s with running := kept' ++ admitted.take j, waiting := waiting } :
          Scheduler).requests = s.requests ∧
        kv.NoNewContent kv' ∧
        (kept.filter Sequence.isScheduledDecode = [] → j = m ∧ waiting = s.waiting) := by
  induction m with
  | zero =>
    intro s kv kept admitted C hrunning hlen _ hfit
    obtain rfl : admitted = [] := List.length_eq_zero_iff.mp hlen
    rw [List.append_nil] at hrunning
    obtain ⟨kept', kv', hrun, C', hreserved, hcontent⟩ := C.reserveDecodeCache (by
      rw [C.length_free, hrunning]
      exact hfit)
    refine ⟨0, kept', s.waiting, kv', ?_, ?_, hrunning ▸ hreserved, ?_, hcontent, fun _ =>
      ⟨rfl, rfl⟩⟩
    · simp only [Scheduler.reserveLoop, hrun, List.take_nil, List.append_nil]
    · simpa using C'
    · simp only [Scheduler.requests, List.take_nil, List.append_nil, List.map_append,
        map_eq_of_forall₂ hreserved fun _ _ h => h.request]
  | succ m ih =>
    intro s kv kept admitted C hrunning hlen hfresh hfit
    have hnone : admitted.filter Sequence.isScheduledDecode = [] := by
      rw [List.filter_eq_nil_iff]
      intro seq hseq
      simp [(hfresh seq hseq).isScheduledDecode]
    have hselected : s.running.filter Sequence.isScheduledDecode =
        kept.filter Sequence.isScheduledDecode := by
      rw [hrunning, List.filter_append, hnone, List.append_nil]
    by_cases hroom : missingBlocks (s.running.filter Sequence.isScheduledDecode) ≤
        kv.freeBlockIds.length
    · obtain ⟨running, kv', hrun, C', hreserved, hcontent⟩ := C.reserveDecodeCache hroom
      have hrequests := map_eq_of_forall₂ hreserved fun _ _ h => h.request
      rw [hrunning] at hreserved
      obtain ⟨kept', admitted', rfl, hkept, hadmitted⟩ := exists_append_of_forall₂ hreserved
      obtain rfl := eq_of_forall₂ hadmitted fun seq hseq seq' h => by
        have heq := h.eq
        rw [h.other (hfresh seq hseq).isScheduledDecode] at heq
        exact heq
      have htake : admitted'.take (m + 1) = admitted' := List.take_of_length_le hlen.le
      refine ⟨m + 1, kept', s.waiting, kv', ?_, ?_, hkept, ?_, hcontent, fun _ => ⟨rfl, rfl⟩⟩
      · simp only [Scheduler.reserveLoop, hrun, htake]
      · rw [htake]
        exact C'
      · rw [htake]
        simp only [Scheduler.requests, List.map_append] at hrequests ⊢
        rw [hrequests]
    · obtain ⟨error, herror⟩ := C.reserveDecodeCache_error (not_le.mp hroom)
      obtain ⟨init, last, rfl⟩ : ∃ init last, admitted = init ++ [last] := by
        rcases List.eq_nil_or_concat admitted with rfl | ⟨init, last, h⟩
        · simp at hlen
        · exact ⟨init, last, by rw [h, List.concat_eq_append]⟩
      have hinit : init.length = m := by simpa using hlen
      have hsplit : s.running = (kept ++ init) ++ [last] := by rw [hrunning, List.append_assoc]
      obtain ⟨kv₁, hrollback, C₁, hsame⟩ :=
        C.rollbackLastAdmission hsplit (hfresh last (by simp))
      obtain ⟨j, kept', waiting, kv', hrun, C', hkept, hrequests, hcontent, hall⟩ := ih C₁ rfl hinit
        (fun seq hseq => hfresh seq (List.mem_append_left _ hseq)) (by rw [hsame.length]; exact hfit)
      have hj : (init ++ [last]).take (min j m) = init.take j := by
        rw [List.take_append_of_le_length (by omega), ← hinit, ← List.take_eq_take_min]
      refine ⟨min j m, kept', waiting, kv', ?_, hj.symm ▸ C', hkept, hj.symm ▸ hrequests.trans ?_,
        (BlockPool.NoNewContent.of_sameContent hsame).trans hcontent, fun hnil => ?_⟩
      · simp only [Scheduler.reserveLoop, herror, hrollback, hrun, hj]
      · simp only [Scheduler.requests, hrunning]
        simp [Sequence.request, BlockPool.released, Sequence.rolledBack]
      · rw [hselected, hnil] at hroom
        exact absurd (Nat.zero_le _) hroom

end Core

end VllmOxide
