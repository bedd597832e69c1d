import VllmOxide.Scheduling.Plan

/-!
# Admissions without a prefix cache

Without a prefix cache `canAllocate` never finds a cached block, so an admitted sequence starts with
nothing cached. After a decision every running sequence that has something cached has run through the
preemptions of the decision, and still has what it had.

## Main results

* `Core.planStep_uncached`: cached tokens belong to sequences that stay.
* `Selected.uncached`: admitted sequences have nothing cached.
-/

namespace VllmOxide

open Scheduler

/-- The sequence and how far it has got. -/
def Sequence.progress (seq : Sequence) : ℕ × ℕ :=
  (seq.seqId, seq.numCachedTokens)

namespace Scheduler

/-- Spending the budget leaves the progress of the sequences. -/
theorem map_progress_scheduleRunningFrom (tokenBudget : ℕ) (running : List Sequence) :
    ∀ scheduled, (scheduleRunningFrom tokenBudget scheduled running).map Sequence.progress =
      running.map Sequence.progress := by
  induction running with
  | nil => exact fun _ => rfl
  | cons seq rest ih =>
    intro scheduled
    obtain ⟨seq', hcons, heq, -⟩ := scheduleRunningFrom_cons tokenBudget scheduled seq rest
    rw [hcons, List.map_cons, List.map_cons, ih, heq]
    rfl

/-- Writing block tables back leaves the progress of the sequences. -/
theorem map_progress_writeBackTables (running : List Sequence) :
    ∀ reserved, (writeBackTables running reserved).map Sequence.progress =
      running.map Sequence.progress := by
  induction running with
  | nil => exact fun _ => rfl
  | cons seq rest ih =>
    intro reserved
    simp only [writeBackTables]
    split
    · split
      · rfl
      · rw [List.map_cons, List.map_cons, ih]
        rfl
    · rw [List.map_cons, List.map_cons, ih]

theorem map_progress_reserveDecodeCache {s s' : Scheduler} {kv kv' : BlockPool}
    (h : reserveDecodeCache (s, kv) = .ok () (s', kv')) :
    s'.running.map Sequence.progress = s.running.map Sequence.progress := by
  simp only [reserveDecodeCache] at h
  split at h
  · cases h
    rfl
  · split at h
    · cases h
    · cases h
      exact map_progress_writeBackTables _ _

theorem running_rollbackLastAdmission {s s' : Scheduler} {kv kv' : BlockPool}
    (h : rollbackLastAdmission (s, kv) = .ok () (s', kv')) : s'.running = s.running.dropLast := by
  simp only [rollbackLastAdmission] at h
  split at h
  · cases h
  · split at h
    · cases h
    · cases h
      rfl

/-- What a failed reservation leaves of the running queue. -/
theorem running_reserveDecodeCache_error {s s' : Scheduler} {kv kv' : BlockPool}
    {error : StepPlanError} (h : reserveDecodeCache (s, kv) = .error error (s', kv')) :
    s'.running = s.running := by
  simp only [reserveDecodeCache] at h
  split at h
  · cases h
  · split at h
    · cases h
      rfl
    · cases h

/-- The reservation loop only drops sequences from the end. -/
theorem map_progress_reserveLoop {m : ℕ} :
    ∀ {s s' : Scheduler} {kv kv' : BlockPool}, reserveLoop m (s, kv) = .ok () (s', kv') →
      s'.running.map Sequence.progress ⊆ s.running.map Sequence.progress := by
  induction m with
  | zero =>
    intro s s' kv kv' h
    simp only [reserveLoop] at h
    split at h
    · rename_i state hrun
      cases h
      rw [map_progress_reserveDecodeCache hrun]
      exact List.Subset.refl _
    · cases h
  | succ m ih =>
    intro s s' kv kv' h
    simp only [reserveLoop] at h
    split at h
    · rename_i state hrun
      cases h
      rw [map_progress_reserveDecodeCache hrun]
      exact List.Subset.refl _
    · rename_i error state herror
      split at h
      · rename_i state' hrollback
        have hdrop := running_rollbackLastAdmission hrollback
        rw [running_reserveDecodeCache_error herror] at hdrop
        refine List.Subset.trans (ih h) ?_
        rw [hdrop]
        exact List.map_subset _ (List.dropLast_subset _)
      · cases h

end Scheduler

variable [HashFunction]

/-- An allocation with `k` cached blocks. -/
theorem numCachedTokens_of_allocate {k : ℕ} {kv kv' : BlockPool} {seq seq' : Sequence}
    (h : BlockPool.allocate k (kv, seq) = .ok () (kv', seq')) :
    seq'.numCachedTokens = k * kv'.blockSize := by
  simp only [BlockPool.allocate] at h
  split at h
  · cases h
  · split at h
    · cases h
    · cases h
      rfl

theorem canAllocate_of_disabled {kv : BlockPool} (hdisabled : kv.prefixCacheEnabled = false)
    {seq : Sequence} {k : ℕ} (h : kv.canAllocate seq = some k) : k = 0 := by
  unfold BlockPool.canAllocate at h
  simp only [hdisabled, if_true] at h
  split at h
  · exact (Option.some.inj h).symm
  · split at h
    · exact (Option.some.inj h).symm
    · cases h

namespace Core

/-- Without a prefix cache the admission loop admits sequences with nothing cached. -/
theorem admitLoop_uncached {running : List Sequence} (tokenBudget slots : ℕ) :
    ∀ {rest : List Sequence} {processed : List (Sequence × Option ℕ)} {total : ℕ}
      {kv : BlockPool} {processed' : List (Sequence × Option ℕ)} {rest' : List Sequence}
      {kv' : BlockPool},
      kv.Invariant ((running ++ admittedEntries processed).map Sequence.holder) →
      (running ++ admittedEntries processed).length + slots ≤ USIZE_MAX →
      (∀ w ∈ rest, w.WaitingOk) → kv.prefixCacheEnabled = false →
      (∀ seq ∈ admittedEntries processed, seq.numCachedTokens = 0) →
      Scheduler.admitLoop tokenBudget slots rest processed total kv =
        .ok () (processed', rest', kv') →
      ∀ seq ∈ admittedEntries processed', seq.numCachedTokens = 0 := by
  induction slots with
  | zero =>
    intro rest processed total kv processed' rest' kv' _ _ _ _ hbefore h
    cases h
    exact hbefore
  | succ slots ih =>
    intro rest processed total kv processed' rest' kv' I hbound hwaiting hdisabled hbefore h
    cases rest with
    | nil =>
      cases h
      exact hbefore
    | cons w tail =>
      have hw := hwaiting w List.mem_cons_self
      have htail : ∀ q ∈ tail, q.WaitingOk := fun q hq => hwaiting q (List.mem_cons_of_mem _ hq)
      have hwork : w.prefillTargetTokens - w.numCachedTokens = w.numTokens := by
        rw [hw.target, hw.cached, Nat.sub_zero]
      rw [Scheduler.admitLoop, hwork] at h
      split at h
      · exact ih (by simpa using I) (by simp at hbound ⊢; omega) htail hdisabled
          (by simpa using hbefore) h
      · rename_i hne
        split at h
        · cases h
          exact hbefore
        · split at h
          · cases h
            exact hbefore
          · rename_i hbudget _ k hcan
            have hpos : 0 < w.numTokens := Nat.pos_of_ne_zero hne
            have hsize : (running ++ admittedEntries processed).length < USIZE_MAX := by omega
            obtain ⟨kv₁, seq, hrun, halloc, I₁, -, hcontent⟩ := allocate I hsize hw hpos hcan
            have hzero : seq.numCachedTokens = 0 := by
              rw [numCachedTokens_of_allocate hrun, canAllocate_of_disabled hdisabled hcan,
                Nat.zero_mul]
            have hlt := halloc.cached_lt
            have htarget := halloc.target
            have hsome : min (seq.prefillTargetTokens - seq.numCachedTokens)
                (tokenBudget - total) ≠ 0 := by
              rw [htarget, hw.target]
              omega
            simp only [hrun, if_neg hsome] at h
            refine ih (by simpa [Sequence.holder, Sequence.admitted, ← List.append_assoc] using I₁)
              (by simp at hbound ⊢; omega) htail (hcontent.enabled.trans hdisabled) ?_ h
            intro q hq
            rw [admittedEntries_append] at hq
            rcases List.mem_append.mp hq with hq | hq
            · exact hbefore q hq
            · obtain rfl := List.mem_singleton.mp hq
              exact hzero

variable {s s' : Scheduler} {kv kv' : BlockPool} {selection : WorkSelection}

/-- The same for the whole admission. -/
theorem schedulePrefillWithBudget_uncached (C : Core s kv) (hdisabled : kv.prefixCacheEnabled = false)
    {tokenBudget : ℕ}
    (h : Scheduler.schedulePrefillWithBudget tokenBudget (s, kv) = .ok selection (s', kv')) :
    ∀ seq ∈ s'.running, seq.numCachedTokens = 0 ∨ seq ∈ s.running := by
  simp only [Scheduler.schedulePrefillWithBudget] at h
  split at h
  · cases h
    exact fun seq hseq => .inr hseq
  · split at h
    · cases h
    · rename_i hloop
      cases h
      have hlength := C.length_le
      have hmax := s.maxNumSeqs.property
      have hpool : kv.Invariant ((s.running ++ admittedEntries []).map Sequence.holder) := by
        simpa [Scheduler.holders] using C.pool
      have huncached := admitLoop_uncached tokenBudget _ hpool
        (by simp only [admittedEntries_nil, List.append_nil]; omega) C.waiting hdisabled (by simp)
        hloop
      intro seq hseq
      rcases List.mem_append.mp hseq with hseq | hseq
      · exact .inr hseq
      · exact .inl (huncached seq hseq)

/-- **Cached tokens without a prefix cache.** After a decision they belong to sequences that have
run through its preemptions. -/
theorem selectWork_uncached (C : Core s kv) (hdisabled : kv.prefixCacheEnabled = false)
    (h : Scheduler.selectWork (s, kv) = .ok selection (s', kv')) {s₁ : Scheduler}
    {kv₁ : BlockPool} (hpreempts : Scheduler.preemptIfNeeded (s, kv) = .ok () (s₁, kv₁)) :
    ∀ seq ∈ s'.running, seq.numCachedTokens = 0 ∨ seq.progress ∈ s₁.running.map Sequence.progress := by
  obtain ⟨n, _, -, hrun, C₁, hsame, -, -⟩ := C.preemptIfNeeded
  rw [hpreempts] at hrun
  cases hrun
  have hdisabled₁ : kv₁.prefixCacheEnabled = false := hsame.enabled.trans hdisabled
  simp only [Scheduler.selectWork, hpreempts] at h
  split at h
  · have C₂ := C₁.scheduleRunning ((s.preemptTo n).runningBudget kv₁)
    have hprogress := map_progress_scheduleRunningFrom ((s.preemptTo n).runningBudget kv₁)
      (s.preemptTo n).running 0
    split at h
    · cases h
    · rename_i hprefill
      have huncached := C₂.schedulePrefillWithBudget_uncached hdisabled₁ hprefill
      split at h
      · cases h
      · rename_i hreserve
        cases h
        intro seq hseq
        obtain ⟨q, hq, hsame⟩ := List.mem_map.mp
          (map_progress_reserveLoop hreserve (List.mem_map_of_mem hseq))
        rcases huncached q hq with hzero | hrunning
        · exact .inl ((congrArg Prod.snd hsame).symm.trans hzero)
        · refine .inr ?_
          rw [← hsame, ← hprogress]
          exact List.mem_map_of_mem hrunning
  · split at h
    · cases h
    · rename_i hprefill
      cases h
      intro seq hseq
      exact (C₁.schedulePrefillWithBudget_uncached hdisabled₁ hprefill seq hseq).imp_right
        fun hmem => List.mem_map_of_mem hmem

/-- The same for the outcome of `planStep`. -/
theorem planStep_uncached (C : Core s kv) (hdisabled : kv.prefixCacheEnabled = false)
    (hinFlight : s.inFlight = none)
    (h : (∃ plan, Scheduler.planStep (s, kv) = .ok plan (s', kv')) ∨
      ∃ error, Scheduler.planStep (s, kv) = .error error (s', kv')) {s₁ : Scheduler}
    {kv₁ : BlockPool} (hpreempts : Scheduler.preemptIfNeeded (s, kv) = .ok () (s₁, kv₁)) :
    ∀ seq ∈ s'.running, seq.numCachedTokens = 0 ∨ seq.progress ∈ s₁.running.map Sequence.progress := by
  obtain ⟨selection, n, kv₁', kept, admitted, s₂, kv₂, hselect, S⟩ := C.selectWork
  have hrunning : s'.running = s₂.running := by
    obtain ⟨hplanned, -⟩ := planSequences_eq kv₂ S.core.running S.work
    simp only [Scheduler.planStep, hinFlight, hselect] at h
    cases hentries : planSequences kv₂ s₂.running with
    | mk running entries =>
      rw [hentries] at h hplanned
      obtain rfl : running = s₂.running := hplanned
      cases entries with
      | error error =>
        rcases h with ⟨plan, h⟩ | ⟨error', h⟩ <;> cases h
        rfl
      | ok entries =>
        cases entries with
        | nil =>
          rcases h with ⟨plan, h⟩ | ⟨error', h⟩ <;> dsimp only at h <;> split at h <;> cases h <;> rfl
        | cons first rest =>
          rcases h with ⟨plan, h⟩ | ⟨error', h⟩ <;> dsimp only at h <;> split at h <;> cases h <;> rfl
  intro seq hseq
  rw [hrunning] at hseq
  exact C.selectWork_uncached hdisabled hselect hpreempts seq hseq

end Core

/-- Then the sequences that the decision admits have nothing cached. -/
theorem Selected.uncached {s s' : Scheduler} {kv kv₁ kv' : BlockPool} {n : ℕ}
    {kept admitted : List Sequence} (S : Selected s kv n kv₁ kept admitted s' kv')
    (h : ∀ seq ∈ s'.running, seq.numCachedTokens = 0 ∨
      seq.progress ∈ (s.preemptTo n).running.map Sequence.progress) :
    ∀ seq ∈ admitted, seq.numCachedTokens = 0 := by
  intro seq hseq
  have hnodup : (s'.running.map (·.seqId)).Nodup := by
    have h := S.core.identified.nodup
    rw [Scheduler.requests, List.map_append, List.map_append] at h
    simpa [List.map_map, Function.comp_def, Sequence.request] using (List.nodup_append.mp h).1
  have hrunning : seq ∈ s'.running := by
    rw [S.running]
    exact List.mem_append_right _ hseq
  refine (h seq hrunning).resolve_right fun hmem => ?_
  obtain ⟨q, hq, hsame⟩ := List.mem_map.mp hmem
  have hkept : kept.map (·.seqId) = (s.running.take n).map (·.seqId) :=
    map_eq_of_forall₂ S.stays fun _ _ h => congrArg Request.seqId h.request
  rw [S.running, List.map_append, hkept] at hnodup
  exact (List.nodup_append.mp hnodup).2.2 _ (List.mem_map_of_mem hq) _
    (List.mem_map_of_mem hseq) (congrArg Prod.fst hsame)

end VllmOxide
