import VllmOxide.System.Engine

/-!
# FIFO order

As long as every prompt has a token, the live requests stand in the order of their ids, the
running ones before the waiting ones. A decision never moves a request: it only moves the place at
which the running part of the list ends.

## Main definitions

* `Scheduler.ids`: the ids of the live requests, from the oldest running one to the end of the
  queue.
* `Ordered`: the requests have tokens and stand in the order of their ids.

## Main results

* `EngineConfig.ordered_of_run`: the order holds in every reachable state.
* `EngineConfig.fifo_order`: what follows for admission, preemption and rollback.
-/

namespace VllmOxide

namespace Scheduler

/-- The ids of the live requests. -/
def ids (s : Scheduler) : List ℕ :=
  (s.running ++ s.waiting).map (·.seqId)

theorem ids_eq (s : Scheduler) : s.ids = s.requests.map (·.seqId) := by
  rw [ids, requests, List.map_map]
  rfl

end Scheduler

/-- An accepted prompt has a token. -/
def Event.Prompted (e : Event) : Prop :=
  e.AcceptsIf fun promptTokenIds _ => promptTokenIds ≠ []

/-- The live requests have tokens and stand in the order of their ids. -/
structure Ordered (s : Scheduler) : Prop where
  nonempty : ∀ r ∈ s.requests, 0 < r.numTokens
  sorted : s.ids.Pairwise (· < ·)

namespace Ordered

variable {s s' : Scheduler}

theorem waiting_pos (h : Ordered s) : ∀ w ∈ s.waiting, 0 < w.numTokens := fun w hw =>
  h.nonempty w.request (List.mem_map_of_mem (List.mem_append_right _ hw))

theorem congr (h : Ordered s) (hs : s'.requests = s.requests) : Ordered s' where
  nonempty := hs ▸ h.nonempty
  sorted := by
    rw [Scheduler.ids_eq, hs, ← Scheduler.ids_eq]
    exact h.sorted

end Ordered

/-- In a list of ids in order, what is taken from the back of the running part is younger than
what is left of it. -/
theorem lt_of_take_back {s s' : Scheduler} (h : s.ids.Pairwise (· < ·)) (hids : s'.ids = s.ids)
    {seq victim : Sequence} (hseq : seq ∈ s'.running) (hvictim : victim ∈ s.running)
    (hgone : victim.seqId ∉ s'.running.map (·.seqId)) : seq.seqId < victim.seqId := by
  have hmem : victim.seqId ∈ s'.ids := by
    rw [hids]
    exact List.mem_map_of_mem (List.mem_append_left _ hvictim)
  rw [← hids, Scheduler.ids, List.map_append, List.pairwise_append] at h
  rw [Scheduler.ids, List.map_append, List.mem_append] at hmem
  exact h.2.2 _ (List.mem_map_of_mem hseq) _ (hmem.resolve_left hgone)

variable [HashFunction]

namespace Ordered

variable {s s' : Scheduler} {kv kv₁ kv' : BlockPool}

/-- A decision does not move the requests. -/
theorem selected (h : Ordered s) {n : ℕ} {kept admitted : List Sequence}
    (S : Selected s kv n kv₁ kept admitted s' kv') : Ordered s' :=
  h.congr (S.ordered h.waiting_pos)

/-- Applying a result removes the finished requests. -/
theorem applied (h : Ordered s) {result : StepResult} {all : List Sequence}
    (A : AppliesTo s kv result all s' kv') : Ordered s' := by
  have hids : s'.ids.Sublist s.ids := by
    have hsub := (sublist_ids (p := fun seq => !seq.isFinished) A.stepped).map Prod.snd
    rw [A.config, Scheduler.ids, Scheduler.ids_eq s]
    simpa [List.map_map, Function.comp_def, Sequence.request] using hsub
  refine ⟨fun r hr => ?_, h.sorted.sublist hids⟩
  obtain ⟨seq, hseq, rfl⟩ := List.mem_map.mp hr
  rw [A.config] at hseq
  rcases List.mem_append.mp hseq with hseq | hseq
  · obtain ⟨q, hq, hstepped⟩ := exists_of_forall₂ A.stepped (List.mem_of_mem_filter hseq)
    have hpos := h.nonempty q.request (List.mem_map_of_mem (List.mem_append_left _ hq))
    rcases hstepped with ⟨-, rfl⟩ | ⟨-, executed, -, -, rfl⟩
    · exact hpos
    · exact hpos.trans_le (Nat.le_add_right _ _)
  · exact h.waiting_pos seq hseq

end Ordered

/-- **The order of reachable states.** -/
theorem EngineConfig.ordered_of_run {config : EngineConfig} {log : List Event} {st : EngineState}
    (h : Run Step config.initial log st) (hprompts : ∀ e ∈ log, e.Prompted) : Ordered st.1 := by
  refine EngineConfig.invariant_of_forall (P := fun _ st => Ordered st.1) h hprompts
    ⟨by simp [EngineConfig.initial, Scheduler.newWithEosTokenIds, Scheduler.requests], .nil⟩ ?_
  intro _ st e st' hrun _ hordered hprompt heffect
  have I := EngineConfig.inv_of_run hrun
  cases heffect with
  | accepted prompt params =>
    have hrequests := st.1.requests_addRequest prompt params
    refine ⟨fun r hr => ?_, ?_⟩
    · rw [hrequests] at hr
      rcases List.mem_append.mp hr with hr | hr
      · exact hordered.nonempty r hr
      · obtain rfl := List.mem_singleton.mp hr
        exact List.length_pos_of_ne_nil hprompt
    · rw [Scheduler.ids_eq, hrequests, List.map_append, ← Scheduler.ids_eq, List.pairwise_append]
      refine ⟨hordered.sorted, List.pairwise_singleton _ _, fun id hid id' hid' => ?_⟩
      rw [Scheduler.ids_eq] at hid
      obtain ⟨r, hr, rfl⟩ := List.mem_map.mp hid
      obtain rfl : id' = st.1.nextSeqId := by
        simpa [Sequence.request, Sequence.new] using hid'
      exact I.core.identified.lt_next r hr
  | planned _ S => exact (hordered.selected S).congr rfl
  | idle _ S | noProgress _ S | unrepresentable _ S => exact hordered.selected S
  | busy | rejected => exact hordered
  | applied _ A => exact hordered.applied A
  | aborted => exact ⟨by simp [Scheduler.requests], .nil⟩

/-- Planning does not move the requests. -/
theorem PlansTo.ids_eq {st st' : EngineState} (h : PlansTo st st') (I : Inv st.1 st.2)
    (hordered : Ordered st.1) : st'.1.ids = st.1.ids := by
  rcases h.selected I with rfl | ⟨n, kv₁, kept, admitted, s, S, hst⟩
  · rfl
  · rw [hst]
    show s.ids = st.1.ids
    rw [Scheduler.ids_eq, S.ordered hordered.waiting_pos, ← Scheduler.ids_eq]

/-! ### Taking requests back -/

omit [HashFunction] in
/-- `deallocate` changes what the sequence owns only. -/
theorem request_of_deallocate {kv kv' : BlockPool} {seq seq' : Sequence}
    (h : kv.deallocate seq = .ok (kv', seq')) : seq'.request = seq.request := by
  simp only [BlockPool.deallocate, BlockPool.deallocateBatch] at h
  split at h
  · cases h
  · rename_i pool seqs hbatch
    split at hbatch
    · cases hbatch
    · split at hbatch
      · cases hbatch
      · simp only [Except.ok.injEq, Prod.mk.injEq] at hbatch h
        obtain ⟨-, rfl⟩ := h
        obtain ⟨-, rfl⟩ := hbatch
        rfl

omit [HashFunction] in
/-- Taking the last running sequence back to the front of the queue does not move the requests. -/
theorem ids_pop {s : Scheduler} {seq : Sequence} (seq' : Sequence) (hlast : s.running.getLast? = some seq)
    (hrequest : seq'.request = seq.request) :
    ({ s with running := s.running.dropLast, waiting := seq' :: s.waiting } : Scheduler).ids =
      s.ids := by
  have hid : seq'.seqId = seq.seqId := congrArg Request.seqId hrequest
  have hsplit := List.dropLast_append_getLast? seq hlast
  simp only [Scheduler.ids, List.map_append, List.map_cons, hid]
  rw [← hsplit]
  simp

omit [HashFunction] in
/-- `rollbackLastAdmission` takes the youngest running request back to its place. -/
theorem rollbackLastAdmission_youngest {s s' : Scheduler} {kv kv' : BlockPool}
    (hsorted : s.ids.Pairwise (· < ·))
    (h : Scheduler.rollbackLastAdmission (s, kv) = .ok () (s', kv')) :
    s'.ids = s.ids ∧ ∃ victim, s.running.getLast? = some victim ∧
      s'.running = s.running.dropLast ∧ ∀ seq ∈ s'.running, seq.seqId < victim.seqId := by
  simp only [Scheduler.rollbackLastAdmission] at h
  split at h
  · cases h
  · rename_i victim hlast
    split at h
    · cases h
    · rename_i kv₁ seq' hdeallocate
      simp only [EStateM.Result.ok.injEq, Prod.mk.injEq, true_and] at h
      obtain ⟨rfl, rfl⟩ := h
      have hrequest := request_of_deallocate hdeallocate
      refine ⟨ids_pop seq'.rolledBack hlast hrequest, victim, hlast, rfl,
        fun seq hseq => ?_⟩
      have hsplit := List.dropLast_append_getLast? victim hlast
      rw [Scheduler.ids, ← hsplit, List.append_assoc, List.map_append,
        List.pairwise_append] at hsorted
      exact hsorted.2.2 _ (List.mem_map_of_mem hseq) _ (by simp)

/-- `preemptIfNeeded` takes requests back to their places, from the youngest running one. -/
theorem preemptIfNeeded_youngest {s s' : Scheduler} {kv kv' : BlockPool} (C : Core s kv)
    (hsorted : s.ids.Pairwise (· < ·))
    (h : Scheduler.preemptIfNeeded (s, kv) = .ok () (s', kv')) :
    s'.ids = s.ids ∧ s'.running <+: s.running ∧
      ∀ seq ∈ s'.running, ∀ victim ∈ s.running.drop s'.running.length,
        seq.seqId < victim.seqId := by
  obtain ⟨n, kv₁, hn, hpreempts, -⟩ := C.preemptIfNeeded
  rw [hpreempts] at h
  simp only [EStateM.Result.ok.injEq, Prod.mk.injEq, true_and] at h
  obtain ⟨rfl, rfl⟩ := h
  refine ⟨?_, List.take_prefix _ _, fun seq hseq victim hvictim => ?_⟩
  · rw [Scheduler.ids_eq, s.requests_preemptTo, ← Scheduler.ids_eq]
  · rw [Scheduler.preemptTo_running, List.length_take, Nat.min_eq_left hn] at hvictim
    rw [Scheduler.ids, ← List.take_append_drop n s.running, List.append_assoc, List.map_append,
      List.pairwise_append] at hsorted
    exact hsorted.2.2 _ (List.mem_map_of_mem hseq) _
      (List.mem_map_of_mem (List.mem_append_left _ hvictim))

/-- **FIFO order.** The live requests are in the order of their ids, the running ones first. A
decision does not move them. So:
* no request is admitted while an older one waits;
* what a decision has stopped is younger than everything that runs after it;
* preemption takes the youngest running requests, and so does every rollback of an admission,
  in whatever state of the decision it happens; both put them back in their places. -/
theorem EngineConfig.fifo_order (config : EngineConfig) {log : List Event} {st : EngineState}
    (h : Run Step config.initial log st) (hprompts : ∀ e ∈ log, e.Prompted) :
    st.1.ids.Pairwise (· < ·) ∧
      (∀ st', PlansTo st st' →
        st'.1.ids = st.1.ids ∧
        (∀ seq ∈ st'.1.running, ∀ w ∈ st'.1.waiting, seq.seqId < w.seqId) ∧
        ∀ victim ∈ st.1.running, victim.seqId ∉ st'.1.running.map (·.seqId) →
          ∀ seq ∈ st'.1.running, seq.seqId < victim.seqId) ∧
      (∀ s kv, Scheduler.preemptIfNeeded st = .ok () (s, kv) →
        s.ids = st.1.ids ∧ s.running <+: st.1.running ∧
        ∀ seq ∈ s.running, ∀ victim ∈ st.1.running.drop s.running.length,
          seq.seqId < victim.seqId) ∧
      ∀ s kv s' kv', s.ids = st.1.ids →
        Scheduler.rollbackLastAdmission (s, kv) = .ok () (s', kv') →
        s'.ids = st.1.ids ∧ ∃ victim, s.running.getLast? = some victim ∧
          s'.running = s.running.dropLast ∧ ∀ seq ∈ s'.running, seq.seqId < victim.seqId := by
  have I := EngineConfig.inv_of_run h
  have hordered := EngineConfig.ordered_of_run h hprompts
  refine ⟨hordered.sorted, fun st' hplans => ?_, fun s kv hpreempts =>
    preemptIfNeeded_youngest I.core hordered.sorted hpreempts,
    fun s kv s' kv' hids hrollback => ?_⟩
  · have hids := hplans.ids_eq I hordered
    refine ⟨hids, fun seq hseq w hw => ?_, fun victim hvictim hgone seq hseq =>
      lt_of_take_back hordered.sorted hids hseq hvictim hgone⟩
    have hsorted := hordered.sorted
    rw [← hids, Scheduler.ids, List.map_append, List.pairwise_append] at hsorted
    exact hsorted.2.2 _ (List.mem_map_of_mem hseq) _ (List.mem_map_of_mem hw)
  · obtain ⟨hsame, h⟩ := rollbackLastAdmission_youngest (hids ▸ hordered.sorted) hrollback
    exact ⟨hsame.trans hids, h⟩

omit [HashFunction] in
/-- With one sequence to a step the older of two requests runs and the younger one waits. -/
theorem fifo_order_twoRequests :
    letI := constantHash
    let st := (performAll (EngineConfig.plain 3 8 1).initial (twoRequests ++ [.planStep])).2
    st.1.running.map (·.seqId) = [0] ∧ st.1.waiting.map (·.seqId) = [1] ∧
      st.1.ids.Pairwise (· < ·) := by
  let _ := constantHash
  have h := EngineConfig.fifo_order (EngineConfig.plain 3 8 1)
    (run_performAll (twoRequests ++ [.planStep]) _)
    (acceptsIf_performAll (fun _ _ h => (of_mem_twoRequests (by simpa using h)).1) _)
  exact ⟨by decide +kernel, by decide +kernel, h.1⟩

end VllmOxide
