import VllmOxide.Scheduling.Preempt
import VllmOxide.Scheduling.Reserve

/-!
# One scheduling decision

`selectWork` preempts, spends the budget on what is left, admits from the queue and reserves the
decode blocks. Under the invariant it never fails, and `Selected` lists what it has done.

## Main definitions

* `Kept`: a sequence that runs before and after a decision.
* `Selected`: what a decision does to the two queues and the pool.

## Main results

* `Core.selectWork`: a decision succeeds.
-/

namespace VllmOxide

/-- Scheduled work stays within the history and within complete tables. -/
structure Sequence.WorkOk (seq : Sequence) : Prop where
  le : seq.numCachedTokens + seq.numScheduledTokens ≤ seq.numTokens
  table : 0 < seq.numScheduledTokens → seq.blockTable.length = seq.numBlocks

/-- A sequence that runs before and after a decision: it gets work and blocks, and nothing else
changes. -/
structure Kept (seq seq' : Sequence) : Prop where
  eq : seq' = { seq with
    numScheduledTokens := seq'.numScheduledTokens
    isPrefill := seq'.isPrefill
    blockTable := seq'.blockTable }
  isPrefix : seq.blockTable <+: seq'.blockTable
  idle : seq'.numScheduledTokens = 0 → seq'.blockTable = seq.blockTable
  work : seq'.WorkOk

namespace Kept

variable {seq seq' seq'' : Sequence}

theorem request (h : Kept seq seq') : seq'.request = seq.request := by
  rw [h.eq]
  rfl

theorem numCachedTokens (h : Kept seq seq') : seq'.numCachedTokens = seq.numCachedTokens := by
  rw [h.eq]

theorem recomputeTargetTokens (h : Kept seq seq') :
    seq'.recomputeTargetTokens = seq.recomputeTargetTokens := by
  rw [h.eq]

/-- Getting work and then blocks. -/
theorem of_reserved (hok : seq.RunningOk) (h : Rescheduled seq seq') (h' : Reserved seq' seq'') :
    Kept seq seq'' := by
  have hok' := h.runningOk hok
  have hblocks : seq'.numBlocks = seq.numBlocks := by
    rw [h.eq]
    rfl
  refine ⟨?_, h.blockTable ▸ h'.isPrefix, fun hzero => ?_, ?_, ?_⟩
  · rw [h'.eq, h.eq]
  · have hzero' : seq'.numScheduledTokens = 0 := by
      rw [h'.eq] at hzero
      exact hzero
    rw [h'.other (by simp [Sequence.isScheduledDecode, hzero']), h.blockTable]
  · have hle := h.le
    rw [h'.eq, h.eq]
    exact hle
  · intro hpos
    have hblocks' : seq''.numBlocks = seq'.numBlocks := by
      rw [h'.eq]
      rfl
    have hpos' : 0 < seq'.numScheduledTokens := by
      rw [h'.eq] at hpos
      exact hpos
    rw [hblocks']
    cases hd : seq'.isScheduledDecode with
    | true => exact h'.length hd
    | false =>
      have hphase : seq'.phase = .prefill := by
        cases hp : seq'.phase with
        | prefill => rfl
        | decode => simp [Sequence.isScheduledDecode, hpos', hp] at hd
      rw [h'.other hd]
      exact (hok'.prefilling hphase).table

end Kept

theorem Sequence.FreshlyAdmitted.work {seq : Sequence} (h : seq.FreshlyAdmitted) : seq.WorkOk :=
  ⟨h.scheduled_le, fun _ => h.prefilling.table⟩

variable [HashFunction]

/-- What a decision has done: the first `n` running sequences stayed, with the pool `kv₁` after
the preemptions, and `admitted` was taken from the queue. -/
structure Selected (s : Scheduler) (kv : BlockPool) (n : ℕ) (kv₁ : BlockPool)
    (kept admitted : List Sequence) (s' : Scheduler) (kv' : BlockPool) : Prop where
  core : Core s' kv'
  config : s' = { s with running := kept ++ admitted, waiting := s'.waiting }
  requests : s'.requests.Perm s.requests
  ordered : (∀ w ∈ s.waiting, 0 < w.numTokens) → s'.requests = s.requests
  content : kv.NoNewContent kv'
  n_le : n ≤ s.running.length
  preempts : Scheduler.preemptIfNeeded (s, kv) = .ok () (s.preemptTo n, kv₁)
  core₁ : Core (s.preemptTo n) kv₁
  same : kv.SameContent kv₁
  last : (n = s.running.length ∧ kv₁ = kv) ∨
    ∃ kv₂, n < s.running.length ∧ Core (s.preemptTo (n + 1)) kv₂ ∧ kv.SameContent kv₂ ∧
      ¬ (s.preemptTo (n + 1)).DecodeFits kv₂
  stays : List.Forall₂ Kept (s.running.take n) kept
  fresh : ∀ seq ∈ admitted, seq.FreshlyAdmitted
  kept_le : (kept.map (·.numScheduledTokens)).sum ≤ (s.preemptTo n).runningBudget kv₁
  total_le : (s'.running.map (·.numScheduledTokens)).sum ≤ s.maxNumBatchedTokens.val
  /-- With a token left for running sequences the oldest one gets work. -/
  oldest : 0 < (s.preemptTo n).runningBudget kv₁ → ∀ seq, kept.head? = some seq →
    0 < seq.numScheduledTokens
  /-- Without one, the token went to the head of the queue. -/
  reserved : 0 < s.maxNumBatchedTokens.val → (s.preemptTo n).runningBudget kv₁ = 0 →
    (∀ w ∈ s.waiting, 0 < w.numTokens) → kept ≠ [] → admitted ≠ []
  /-- With nothing running after the preemptions, the first admitted sequence gets all it can. -/
  first : kept = [] → ∀ seq, admitted.head? = some seq → seq.numScheduledTokens =
    min (seq.prefillTargetTokens - seq.numCachedTokens) s.maxNumBatchedTokens.val
  /-- With nothing running after the preemptions, the head of the queue is admitted if it fits. -/
  idle : kept = [] → admitted = [] → (∀ w ∈ s.waiting, 0 < w.numTokens) →
    s'.waiting = (s.preemptTo n).waiting ∧ kv' = kv₁ ∧
      ((s.preemptTo n).waiting = [] ∨ s.maxNumSeqs.val = 0 ∨
        ∃ w tail, (s.preemptTo n).waiting = w :: tail ∧
          (s.maxNumBatchedTokens.val = 0 ∨ kv₁.canAllocate w = none))

namespace Scheduler

theorem runningBudget_le (s : Scheduler) (kv : BlockPool) :
    s.runningBudget kv ≤ s.maxNumBatchedTokens.val :=
  Nat.sub_le _ _

/-- A token is reserved only if the head of the queue can be admitted. -/
theorem of_reserveAdmissionToken {s : Scheduler} {kv : BlockPool}
    (h : s.reserveAdmissionToken kv = true) :
    ∃ w tail, s.waiting = w :: tail ∧ 0 < s.maxNumBatchedTokens.val ∧
      s.running.length < s.maxNumSeqs.val ∧ kv.canAllocate w ≠ none := by
  simp only [reserveAdmissionToken, Bool.and_eq_true] at h
  obtain ⟨hwaiting, hblock⟩ := h
  cases hw : s.waiting with
  | nil => simp [hw] at hwaiting
  | cons w tail =>
    refine ⟨w, tail, rfl, ?_⟩
    simp only [admissionBlock, hw] at hblock
    split at hblock
    · simp at hblock
    · split at hblock
      · simp at hblock
      · split at hblock
        · simp at hblock
        · exact ⟨by omega, by omega, ‹_›⟩

/-- The head of a preempted queue is idle only if the head of the queue was. -/
theorem preemptTo_waiting_pos {s : Scheduler} {kv : BlockPool} (C : Core s kv) (n : ℕ)
    (h : ∀ w ∈ s.waiting, 0 < w.numTokens) : ∀ w ∈ (s.preemptTo n).waiting, 0 < w.numTokens := by
  intro w hw
  rcases List.mem_append.mp hw with hw | hw
  · obtain ⟨seq, hseq, rfl⟩ := List.mem_map.mp hw
    exact Nat.zero_lt_of_lt (C.running seq (List.mem_of_mem_drop hseq)).cached_lt
  · exact h w hw

end Scheduler

namespace Core

variable {s : Scheduler} {kv : BlockPool}

theorem missingBlocks_decodeBatch (C : Core s kv) (h : s.DecodeFits kv) :
    missingBlocks (Scheduler.decodeBatch (s.runningBudget kv) s.running) ≤
      kv.freeBlockIds.length := by
  rw [Scheduler.DecodeFits, kv.canAppendBatch_eq
    (fun seq hseq => (C.running seq (Scheduler.of_mem_decodeBatch hseq).1).ready)
    ((Scheduler.length_decodeBatch_le _ _).trans C.length_le_usize)] at h
  exact of_decide_eq_true h

omit [HashFunction] in
/-- Nothing is scheduled without a budget. -/
theorem scheduleRunning_zero (s : Scheduler) :
    ∀ seq ∈ (s.scheduleRunning 0).running, seq.numScheduledTokens = 0 := by
  intro seq hseq
  have hsum := Scheduler.scheduledTokens_scheduleRunningFrom_le 0 s.running 0
  exact List.sum_eq_zero_iff_forall_eq_nat.mp (Nat.le_zero.mp hsum) _
    (List.mem_map_of_mem (f := Sequence.numScheduledTokens) hseq)

/-- The decision when something still runs after the preemptions. -/
theorem selectWork_of_running (C : Core s kv) {n : ℕ} {kv₁ : BlockPool}
    (hn : n ≤ s.running.length)
    (hpreempts : Scheduler.preemptIfNeeded (s, kv) = .ok () (s.preemptTo n, kv₁))
    (C₁ : Core (s.preemptTo n) kv₁) (hsame : kv.SameContent kv₁)
    (hfits : (s.preemptTo n).DecodeFits kv₁)
    (hlast : (n = s.running.length ∧ kv₁ = kv) ∨
      ∃ kv₂, n < s.running.length ∧ Core (s.preemptTo (n + 1)) kv₂ ∧ kv.SameContent kv₂ ∧
        ¬ (s.preemptTo (n + 1)).DecodeFits kv₂)
    (hne : (s.preemptTo n).running ≠ []) :
    ∃ selection kept admitted s' kv', Scheduler.selectWork (s, kv) = .ok selection (s', kv') ∧
      Selected s kv n kv₁ kept admitted s' kv' := by
  set s₁ := s.preemptTo n with hs₁
  set budget := s₁.runningBudget kv₁ with hbudget
  set s₂ := s₁.scheduleRunning budget with hs₂
  have C₂ : Core s₂ kv₁ := C₁.scheduleRunning budget
  have hsched : List.Forall₂ Rescheduled s₁.running s₂.running :=
    Scheduler.rescheduled_scheduleRunningFrom budget 0 C₁.running
  obtain ⟨admitted, waiting, kv₂, hprefill, A⟩ :=
    C₂.schedulePrefillWithBudget (s.maxNumBatchedTokens.val - s₂.scheduledTokens)
  -- the selected decoders are the batch that preemption made room for
  have hfit : missingBlocks (s₂.running.filter Sequence.isScheduledDecode) ≤
      freeBlocks kv₂.blocks.length (s₂.running.map (·.blockTable)) := by
    have h := Scheduler.missingBlocks_scheduleRunningFrom budget s₁.running 0
    rw [Nat.sub_zero] at h
    rw [A.content.length, ← C₂.length_free]
    exact h.trans_le (C₁.missingBlocks_decodeBatch hfits)
  obtain ⟨j, kept, waiting', kv', hreserve, C', hkept, hrequests, hcontent, hall⟩ :=
    reserveLoop A.core rfl rfl A.fresh hfit
  have hrequests₂ : s₂.requests = s.requests := by
    rw [← s.requests_preemptTo n, ← hs₁]
    simp only [Scheduler.requests, List.map_append,
      map_eq_of_forall₂ hsched fun _ _ h => h.request]
    rfl
  have hpos₁ : (∀ w ∈ s.waiting, 0 < w.numTokens) → ∀ w ∈ s₂.waiting, 0 < w.numTokens :=
    Scheduler.preemptTo_waiting_pos C n
  have hstays : List.Forall₂ Kept (s.running.take n) kept := by
    refine forall₂_trans hsched hkept fun seq hseq seq' seq'' h h' => ?_
    exact Kept.of_reserved (C₁.running seq hseq) h h'
  have hlength : kept.length = s₁.running.length := hstays.length_eq.symm
  have hkeptTokens : (kept.map (·.numScheduledTokens)).sum = s₂.scheduledTokens := by
    rw [Scheduler.scheduledTokens]
    exact congrArg List.sum (map_eq_of_forall₂ hkept fun _ _ h => by rw [h.eq])
  have hbudgetle : s₂.scheduledTokens ≤ budget :=
    Scheduler.scheduledTokens_scheduleRunningFrom_le budget s₁.running 0
  have hrun : ∃ selection, Scheduler.selectWork (s, kv) = .ok selection
      ({ s₂.withAdmitted admitted waiting with
          running := kept ++ admitted.take j
          waiting := waiting' }, kv') := by
    have hadded : (s₂.withAdmitted admitted waiting).running.length - s₁.running.length =
        admitted.length := by
      rw [Scheduler.withAdmitted, List.length_append, hsched.length_eq, Nat.add_sub_cancel_left]
    simp only [Scheduler.selectWork, hpreempts]
    rw [if_pos hne]
    simp only [← hbudget, ← hs₂]
    rw [show s₂.maxNumBatchedTokens = s.maxNumBatchedTokens from rfl, hprefill]
    simp only [hadded, hreserve]
    exact ⟨_, rfl⟩
  obtain ⟨selection, hrun⟩ := hrun
  refine ⟨selection, kept, admitted.take j, _, kv', hrun, C', rfl, ?_, fun hpos => ?_, ?_, hn,
    hpreempts, C₁, hsame, hlast, hstays, fun seq hseq => A.fresh seq (List.mem_of_mem_take hseq),
    hkeptTokens.le.trans hbudgetle, ?_,
    fun htoken seq hhead => ?_, fun hT hzero hpos _ => ?_, fun hnil => ?_, fun hnil => ?_⟩
  · exact (List.Perm.of_eq hrequests).trans (A.requests.trans (List.Perm.of_eq hrequests₂))
  · exact hrequests.trans ((A.ordered (hpos₁ hpos)).trans hrequests₂)
  · exact (BlockPool.NoNewContent.of_sameContent hsame).trans (A.content.trans hcontent)
  · have hT : budget ≤ s.maxNumBatchedTokens.val := Scheduler.runningBudget_le s₁ kv₁
    have htokens := A.tokens_le
    have hsplit := congrArg (fun l => (l.map (·.numScheduledTokens)).sum)
      (List.take_append_drop j admitted)
    simp only [List.map_append, List.sum_append] at hsplit
    show ((kept ++ admitted.take j).map (·.numScheduledTokens)).sum ≤ _
    rw [List.map_append, List.sum_append, hkeptTokens]
    omega
  · obtain ⟨first, rest, hfirst⟩ := List.exists_cons_of_ne_nil hne
    obtain ⟨first', hcons, -, hcount⟩ := Scheduler.scheduleRunningFrom_cons budget 0 first rest
    have hcount' : 0 < first'.numScheduledTokens := by
      rw [hcount, Nat.sub_zero]
      exact (C₁.running first (by simp [hfirst])).runningTokenCount_pos htoken
    rw [hs₂, Scheduler.scheduleRunning, hfirst, hcons] at hkept
    cases hkept with
    | @cons _ q _ tail hq _ =>
      obtain rfl : q = seq := by simpa using hhead
      rw [hq.eq]
      exact hcount'
  · -- the reserved token is the whole budget, so no decoder is selected and nothing is taken back
    have hnone : ∀ seq ∈ s₂.running, seq.numScheduledTokens = 0 := by
      rw [hs₂, show budget = 0 from hzero]
      exact scheduleRunning_zero s₁
    have hfilter : s₂.running.filter Sequence.isScheduledDecode = [] := by
      rw [List.filter_eq_nil_iff]
      intro seq hseq
      simp [Sequence.isScheduledDecode, hnone seq hseq]
    have htokens : s₂.scheduledTokens = 0 := by
      rw [Scheduler.scheduledTokens, List.sum_eq_zero_iff_forall_eq_nat]
      intro k hk
      obtain ⟨seq, hseq, rfl⟩ := List.mem_map.mp hk
      exact hnone seq hseq
    have hreserve : s₁.reserveAdmissionToken kv₁ = true := by
      by_contra hno
      have h : s.maxNumBatchedTokens.val - (if s₁.reserveAdmissionToken kv₁ then 1 else 0) = 0 :=
        hzero
      rw [if_neg hno] at h
      omega
    obtain ⟨w, tail, hw, -, hslots, hcan⟩ := Scheduler.of_reserveAdmissionToken hreserve
    have hw₂ : s₂.waiting = w :: tail := hw
    have hlength₂ : s₂.running.length = s₁.running.length := hsched.length_eq.symm
    rw [(hall hfilter).1, List.take_length]
    intro hnil
    obtain ⟨-, hidle⟩ := A.idle hnil
    rcases (hidle (hpos₁ hpos)).2 with h | h | ⟨q, tail', h, hstop⟩
    · simp [hw₂] at h
    · have hmax : s₁.maxNumSeqs.val ≤ s₂.running.length := h
      omega
    · obtain ⟨rfl, rfl⟩ : w = q ∧ tail = tail' := by simpa [hw₂] using h
      rcases hstop with h | h
      · omega
      · exact hcan h
  all_goals
    rw [hnil] at hlength
    exact absurd (List.length_eq_zero_iff.mp hlength.symm) hne

/-- **Deciding.** Under the invariant `selectWork` never fails. -/
theorem selectWork (C : Core s kv) :
    ∃ selection n kv₁ kept admitted s' kv',
      Scheduler.selectWork (s, kv) = .ok selection (s', kv') ∧
      Selected s kv n kv₁ kept admitted s' kv' := by
  obtain ⟨n, kv₁, hn, hpreempts, C₁, hsame, hfits, hlast⟩ := C.preemptIfNeeded
  by_cases hne : (s.preemptTo n).running ≠ []
  · obtain ⟨selection, kept, admitted, s', kv', h⟩ :=
      C.selectWork_of_running hn hpreempts C₁ hsame hfits hlast hne
    exact ⟨selection, n, kv₁, kept, admitted, s', kv', h⟩
  · -- nothing runs: the whole budget goes to admissions
    have hnil : s.running.take n = [] := not_not.mp hne
    obtain ⟨admitted, waiting, kv', hprefill, A⟩ :=
      C₁.schedulePrefillWithBudget s.maxNumBatchedTokens.val
    have hpos := Scheduler.preemptTo_waiting_pos C n
    have hrunning : (s.preemptTo n).withAdmitted admitted waiting =
        { s with running := [] ++ admitted, waiting := waiting } := by
      simp [Scheduler.withAdmitted, Scheduler.preemptTo, hnil]
    have hrun : ∃ selection, Scheduler.selectWork (s, kv) =
        .ok selection ((s.preemptTo n).withAdmitted admitted waiting, kv') := by
      simp only [Scheduler.selectWork, hpreempts, if_neg hne]
      rw [show (s.preemptTo n).maxNumBatchedTokens = s.maxNumBatchedTokens from rfl, hprefill]
      exact ⟨_, rfl⟩
    obtain ⟨selection, hrun⟩ := hrun
    refine ⟨selection, n, kv₁, [], admitted, _, kv', hrun, A.core, hrunning, ?_, fun h => ?_, ?_,
      hn, hpreempts, C₁, hsame, hlast, by rw [hnil]; exact .nil, A.fresh, by simp, ?_, by simp,
      fun _ _ _ h => absurd rfl h, fun _ => A.first, fun _ hadmitted h => ?_⟩
    · exact A.requests.trans (List.Perm.of_eq (s.requests_preemptTo n))
    · exact (A.ordered (hpos h)).trans (s.requests_preemptTo n)
    · exact (BlockPool.NoNewContent.of_sameContent hsame).trans A.content
    · rw [hrunning]
      exact A.tokens_le
    · obtain ⟨hkv, hidle⟩ := A.idle hadmitted
      obtain ⟨hwaiting, hstop⟩ := hidle (hpos h)
      refine ⟨hwaiting, hkv, ?_⟩
      rcases hstop with h | h | h
      · exact .inl h
      · refine .inr (.inl (Nat.le_zero.mp ?_))
        rw [Scheduler.preemptTo_running, hnil] at h
        exact h
      · exact .inr (.inr h)

end Core

namespace Selected

variable {s s' : Scheduler} {kv kv₁ kv' : BlockPool} {n : ℕ} {kept admitted : List Sequence}

theorem running (S : Selected s kv n kv₁ kept admitted s' kv') : s'.running = kept ++ admitted := by
  rw [S.config]

/-- Scheduled work stays within the history and within complete tables. -/
theorem work (S : Selected s kv n kv₁ kept admitted s' kv') : ∀ seq ∈ s'.running, seq.WorkOk := by
  intro seq hseq
  rw [S.running] at hseq
  rcases List.mem_append.mp hseq with hseq | hseq
  · obtain ⟨q, -, hq⟩ := exists_of_forall₂ S.stays hseq
    exact hq.work
  · exact (S.fresh seq hseq).work

theorem length_kept (S : Selected s kv n kv₁ kept admitted s' kv') : kept.length = n := by
  rw [← S.stays.length_eq, List.length_take, Nat.min_eq_left S.n_le]

/-- With a token left for running sequences, the oldest sequence running afterwards has work. -/
theorem head_scheduled (S : Selected s kv n kv₁ kept admitted s' kv')
    (htoken : 0 < (s.preemptTo n).runningBudget kv₁) {seq : Sequence}
    (hhead : s'.running.head? = some seq) : 0 < seq.numScheduledTokens := by
  rw [S.running] at hhead
  cases hkept : kept with
  | nil =>
    rw [hkept, List.nil_append] at hhead
    exact (S.fresh seq (List.mem_of_head? hhead)).scheduled_pos
  | cons q rest =>
    rw [hkept] at hhead
    exact S.oldest htoken seq (by rw [hkept]; simpa using hhead)

end Selected

end VllmOxide
