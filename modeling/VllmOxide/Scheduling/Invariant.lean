import VllmOxide.Engine.Scheduler
import VllmOxide.Pool.Append

/-!
# The invariant of the scheduler

`Sequence.request` is the part of a sequence that scheduling never changes: its identity, its
token history and its parameters. `Core s kv` ties the two queues to each other and to the pool:

* the running sequences are the holders of the pool, and each of them is either prefilling
  towards its complete history or decoding its last token;
* the waiting sequences own nothing and have nothing cached;
* every running sequence has a block that none of the older ones has;
* the requests have distinct ids, all of them issued.

Taking the youngest running sequence back to the queue keeps the invariant (`Core.pop`); both
preemption and admission rollback are such steps.

## Main definitions

* `Request`, `Sequence.request`, `Scheduler.requests`: what a request is made of.
* `Sequence.Prefilling`, `Sequence.Decoding`, `Sequence.RunningOk`, `Sequence.WaitingOk`: the
  states of a live sequence.
* `Core`: the invariant.
-/

namespace VllmOxide

/-- The part of a sequence that scheduling never changes. -/
structure Request where
  requestId : ℕ
  seqId : ℕ
  tokenIds : List Token
  lastToken : Token
  numTokens : ℕ
  numPromptTokens : ℕ
  samplingParams : SamplingParams

namespace Sequence

/-- The request of a sequence. -/
def request (seq : Sequence) : Request where
  requestId := seq.requestId
  seqId := seq.seqId
  tokenIds := seq.tokenIds
  lastToken := seq.lastToken
  numTokens := seq.numTokens
  numPromptTokens := seq.numPromptTokens
  samplingParams := seq.samplingParams

/-- A sequence on its way to a complete cache of its history. -/
structure Prefilling (seq : Sequence) : Prop where
  cached_lt : seq.numCachedTokens < seq.numTokens
  target : seq.prefillTargetTokens = seq.numTokens
  table : seq.blockTable.length = seq.numBlocks

/-- A sequence whose cache misses the last token only. -/
structure Decoding (seq : Sequence) : Prop where
  recovered : seq.recomputeTargetTokens = none
  cached : seq.numCachedTokens + 1 = seq.numTokens
  prompt_le : seq.numPromptTokens ≤ seq.numCachedTokens
  ready : seq.AppendReady

/-- A running sequence. -/
structure RunningOk (seq : Sequence) : Prop where
  status : seq.status = .running
  numTokens : seq.numTokens = seq.tokenIds.length
  prompt_le : seq.numPromptTokens ≤ seq.numTokens
  progress : seq.Prefilling ∨ seq.Decoding

/-- A waiting sequence. -/
structure WaitingOk (seq : Sequence) : Prop where
  status : seq.status = .waiting
  numTokens : seq.numTokens = seq.tokenIds.length
  prompt_le : seq.numPromptTokens ≤ seq.numTokens
  table : seq.blockTable = []
  cached : seq.numCachedTokens = 0
  target : seq.prefillTargetTokens = seq.numTokens

variable {seq : Sequence}

/-- `numBlocks` blocks hold the history, and fewer do not. -/
theorem le_numBlocks_mul (seq : Sequence) : seq.numTokens ≤ BLOCK_SIZE * seq.numBlocks := by
  simp only [numBlocks, BLOCK_SIZE]
  omega

theorem lt_of_lt_numBlocks {k : ℕ} (h : k < seq.numBlocks) : BLOCK_SIZE * k < seq.numTokens := by
  simp only [numBlocks, BLOCK_SIZE] at *
  omega

theorem numBlocks_pos (h : 0 < seq.numTokens) : 0 < seq.numBlocks := by
  simp only [numBlocks, BLOCK_SIZE]
  omega

theorem Prefilling.phase (h : seq.Prefilling) : seq.phase = .prefill := by
  rw [Sequence.phase, if_pos (h.target ▸ h.cached_lt)]

theorem Decoding.target (h : seq.Decoding) : seq.prefillTargetTokens = seq.numPromptTokens := by
  rw [prefillTargetTokens, h.recovered, Option.getD_none]

theorem Decoding.phase (h : seq.Decoding) : seq.phase = .decode := by
  rw [Sequence.phase, if_neg (by rw [h.target]; exact not_lt.mpr h.prompt_le)]

theorem RunningOk.decoding (h : seq.RunningOk) (hp : seq.phase = .decode) : seq.Decoding :=
  h.progress.resolve_left fun hprefill => by simp [hprefill.phase] at hp

theorem RunningOk.prefilling (h : seq.RunningOk) (hp : seq.phase = .prefill) : seq.Prefilling :=
  h.progress.resolve_right fun hdecode => by simp [hdecode.phase] at hp

theorem RunningOk.cached_lt (h : seq.RunningOk) : seq.numCachedTokens < seq.numTokens := by
  rcases h.progress with hp | hd
  · exact hp.cached_lt
  · exact hd.cached ▸ Nat.lt_succ_self _

theorem RunningOk.ready (h : seq.RunningOk) : seq.AppendReady := by
  rcases h.progress with hp | hd
  · refine ⟨hp.table.le, by rw [hp.table]; omega, ?_⟩
    rw [hp.table]
    exact hp.cached_lt.le.trans seq.le_numBlocks_mul
  · exact hd.ready

theorem RunningOk.numBlocks_pos (h : seq.RunningOk) : 0 < seq.numBlocks :=
  Sequence.numBlocks_pos (by have := h.cached_lt; omega)

/-- The invariant of a running sequence does not mention its scheduled work. -/
theorem RunningOk.reschedule (h : seq.RunningOk) (numScheduledTokens : ℕ) (isPrefill : Bool) :
    ({ seq with numScheduledTokens := numScheduledTokens, isPrefill := isPrefill } :
      Sequence).RunningOk where
  status := h.status
  numTokens := h.numTokens
  prompt_le := h.prompt_le
  progress := h.progress.imp (fun hp => ⟨hp.cached_lt, hp.target, hp.table⟩)
    fun hd => ⟨hd.recovered, hd.cached, hd.prompt_le,
      ⟨hd.ready.table_le, hd.ready.le_table, hd.ready.cached_le⟩⟩

/-- A new request waits. -/
theorem waitingOk_new (requestId seqId : ℕ) (tokenIds : List Token) (params : SamplingParams) :
    (new requestId seqId tokenIds params).WaitingOk where
  status := rfl
  numTokens := rfl
  prompt_le := le_refl _
  table := rfl
  cached := rfl
  target := rfl

/-- A preempted sequence waits, with its complete history as recovery target. -/
theorem RunningOk.preempted (h : seq.RunningOk) : (BlockPool.released seq).preempted.WaitingOk where
  status := rfl
  numTokens := h.numTokens
  prompt_le := h.prompt_le
  table := rfl
  cached := rfl
  target := by
    have hle : seq.recomputeTargetTokens.getD 0 ≤ seq.numTokens := by
      rcases h.progress with hp | hd
      · have htarget := hp.target
        rw [prefillTargetTokens] at htarget
        cases hr : seq.recomputeTargetTokens with
        | none => exact Nat.zero_le _
        | some target =>
          rw [hr, Option.getD_some] at htarget
          exact htarget.le
      · rw [hd.recovered]
        exact Nat.zero_le _
    exact max_eq_right hle

end Sequence

namespace Scheduler

/-- The live requests, from the oldest running one to the end of the queue. -/
def requests (s : Scheduler) : List Request :=
  (s.running ++ s.waiting).map Sequence.request

/-- The pool's view of the running sequences. -/
def holders (s : Scheduler) : List Holder :=
  s.running.map Sequence.holder

end Scheduler

/-- The requests have distinct issued ids. -/
structure Identified (requests : List Request) (nextSeqId : ℕ) : Prop where
  nodup : (requests.map (·.seqId)).Nodup
  requestId : ∀ r ∈ requests, r.requestId = r.seqId
  lt_next : ∀ r ∈ requests, r.seqId < nextSeqId

theorem Identified.perm {requests requests' : List Request} {n : ℕ} (h : Identified requests n)
    (hp : requests.Perm requests') : Identified requests' n where
  nodup := (hp.map _).nodup_iff.mp h.nodup
  requestId r hr := h.requestId r (hp.mem_iff.mpr hr)
  lt_next r hr := h.lt_next r (hp.mem_iff.mpr hr)

theorem Identified.sublist {requests requests' : List Request} {n : ℕ} (h : Identified requests n)
    (hs : requests'.Sublist requests) : Identified requests' n where
  nodup := h.nodup.sublist (hs.map _)
  requestId r hr := h.requestId r (hs.subset hr)
  lt_next r hr := h.lt_next r (hs.subset hr)

variable [HashFunction]

/-- The invariant of the scheduler and the pool. -/
structure Core (s : Scheduler) (kv : BlockPool) : Prop where
  pool : kv.Invariant s.holders
  running : ∀ seq ∈ s.running, seq.RunningOk
  waiting : ∀ seq ∈ s.waiting, seq.WaitingOk
  ownBlock : EachOwns (s.running.map (·.blockTable))
  length_le : s.running.length ≤ s.maxNumSeqs.val
  identified : Identified s.requests s.nextSeqId
  nextRequestId : s.nextRequestId = s.nextSeqId

namespace Core

variable {s : Scheduler} {kv kv' : BlockPool}

theorem length_le_usize (C : Core s kv) : s.running.length ≤ USIZE_MAX :=
  C.length_le.trans s.maxNumSeqs.property

/-- Taking the youngest running sequence back to the front of the queue. -/
theorem pop (C : Core s kv) {seq : Sequence} (hlast : s.running.getLast? = some seq) :
    ∃ kv', kv.deallocate seq = .ok (kv', BlockPool.released seq) ∧
      kv.SameContent kv' ∧
      ∀ seq' : Sequence, seq'.WaitingOk → seq'.request = seq.request →
        Core { s with running := s.running.dropLast, waiting := seq' :: s.waiting } kv' := by
  have hsplit : s.running.dropLast ++ [seq] = s.running :=
    List.dropLast_append_getLast? seq hlast
  have hholders : s.holders = s.running.dropLast.map Sequence.holder ++ [seq.holder] := by
    rw [Scheduler.holders, ← hsplit]
    simp
  have hperm : s.holders.Perm (seq.holder :: s.running.dropLast.map Sequence.holder) := by
    rw [hholders]
    exact List.perm_append_singleton _ _
  obtain ⟨kv', hrun, I', hsame⟩ := (C.pool.perm hperm).releaseOne
  refine ⟨kv', hrun, hsame, fun seq' hwaiting hrequest => ?_⟩
  have hrequests : ({ s with running := s.running.dropLast, waiting := seq' :: s.waiting } :
      Scheduler).requests = s.requests := by
    simp only [Scheduler.requests, List.map_append, List.map_cons, hrequest]
    rw [← hsplit]
    simp
  have hsub := List.dropLast_sublist s.running
  exact {
    pool := I'
    running := fun q hq => C.running q (hsub.subset hq)
    waiting := by
      rintro q (_ | ⟨_, hq⟩)
      · exact hwaiting
      · exact C.waiting q hq
    ownBlock := C.ownBlock.sublist (hsub.map _)
    length_le := hsub.length_le.trans C.length_le
    identified := hrequests ▸ C.identified
    nextRequestId := C.nextRequestId }

end Core

end VllmOxide
