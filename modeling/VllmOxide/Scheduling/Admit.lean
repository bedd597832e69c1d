import VllmOxide.Scheduling.Invariant

/-!
# Admission

The admission loop visits the waiting queue from its head. It skips the sequences without work,
gives the others their blocks and a share of the token budget, and stops at the first one that
does not fit. Under the invariant no allocation fails after `canAllocate` found room, so the
rollback branches are never taken.

## Main definitions

* `Allocated`: a waiting sequence before and after its allocation.
* `Visited`: what the loop does with one waiting sequence.
* `Admission.Stops`: the reasons for which the loop ends.

## Main results

* `Core.admitLoop`, `Core.schedulePrefillWithBudget`: admission succeeds and keeps the invariant.
-/

namespace VllmOxide

/-- A waiting sequence before and after its allocation: its leading full blocks are cached, and at
least one block is not. -/
structure Allocated (w seq : Sequence) : Prop where
  eq : seq = { w with blockTable := seq.blockTable, numCachedTokens := seq.numCachedTokens }
  table : seq.blockTable.length = w.numBlocks
  cached : ∃ k, seq.numCachedTokens = BLOCK_SIZE * k ∧ k < w.numBlocks

/-- What the admission loop does with one waiting sequence. -/
inductive Visited : Sequence → Sequence × Option ℕ → Prop
  | skipped {w : Sequence} (h : w.numTokens = 0) : Visited w (w, none)
  | admitted {w seq : Sequence} {n : ℕ} (h : Allocated w seq) (hpos : 0 < n)
      (hle : seq.numCachedTokens + n ≤ w.numTokens) : Visited w (seq, some n)

namespace Allocated

variable {w seq : Sequence}

theorem request (h : Allocated w seq) : seq.request = w.request := by
  rw [h.eq]
  rfl

theorem numTokens (h : Allocated w seq) : seq.numTokens = w.numTokens := by
  rw [h.eq]

theorem target (h : Allocated w seq) : seq.prefillTargetTokens = w.prefillTargetTokens := by
  rw [h.eq]
  rfl

theorem cached_lt (h : Allocated w seq) : seq.numCachedTokens < w.numTokens := by
  obtain ⟨k, hk, hlt⟩ := h.cached
  rw [hk]
  exact Sequence.lt_of_lt_numBlocks hlt

/-- An admitted sequence is prefilling. -/
theorem prefilling (h : Allocated w seq) (hw : w.WaitingOk) (n : ℕ) :
    (seq.admitted n).Prefilling where
  cached_lt := h.numTokens.symm ▸ h.cached_lt
  target := h.target.trans (hw.target.trans h.numTokens.symm)
  table := h.table.trans (by rw [Sequence.numBlocks, ← h.numTokens]; rfl)

theorem runningOk (h : Allocated w seq) (hw : w.WaitingOk) (n : ℕ) :
    (seq.admitted n).RunningOk where
  status := rfl
  numTokens := by
    show seq.numTokens = seq.tokenIds.length
    rw [h.eq]
    exact hw.numTokens
  prompt_le := by
    show seq.numPromptTokens ≤ seq.numTokens
    rw [h.eq]
    exact hw.prompt_le
  progress := .inl (h.prefilling hw n)

end Allocated

namespace Scheduler

@[simp] theorem keptEntries_append (xs ys : List (Sequence × Option ℕ)) :
    keptEntries (xs ++ ys) = keptEntries xs ++ keptEntries ys :=
  List.filterMap_append

@[simp] theorem admittedEntries_append (xs ys : List (Sequence × Option ℕ)) :
    admittedEntries (xs ++ ys) = admittedEntries xs ++ admittedEntries ys :=
  List.filterMap_append

@[simp] theorem keptEntries_skipped (seq : Sequence) (rest : List (Sequence × Option ℕ)) :
    keptEntries ((seq, none) :: rest) = seq :: keptEntries rest := rfl

@[simp] theorem keptEntries_admitted (seq : Sequence) (n : ℕ)
    (rest : List (Sequence × Option ℕ)) :
    keptEntries ((seq, some n) :: rest) = keptEntries rest := rfl

@[simp] theorem admittedEntries_skipped (seq : Sequence) (rest : List (Sequence × Option ℕ)) :
    admittedEntries ((seq, none) :: rest) = admittedEntries rest := rfl

@[simp] theorem admittedEntries_admitted (seq : Sequence) (n : ℕ)
    (rest : List (Sequence × Option ℕ)) :
    admittedEntries ((seq, some n) :: rest) = seq.admitted n :: admittedEntries rest := rfl

@[simp] theorem keptEntries_nil : keptEntries [] = [] := rfl

@[simp] theorem admittedEntries_nil : admittedEntries [] = [] := rfl

end Scheduler

open Scheduler

/-- The tokens scheduled for the admitted entries. -/
def admittedTokens (entries : List (Sequence × Option ℕ)) : ℕ :=
  ((admittedEntries entries).map (·.numScheduledTokens)).sum

variable [HashFunction]

/-- The reasons for which the admission loop ends: it has used its slots, the queue is empty, or
the next sequence has work but no token is left or its blocks do not fit. -/
def Admission.Stops (tokenBudget slots total : ℕ) (entries : List (Sequence × Option ℕ))
    (rest : List Sequence) (kv : BlockPool) : Prop :=
  entries.length = slots ∨ rest = [] ∨ ∃ w tail, rest = w :: tail ∧ 0 < w.numTokens ∧
    (tokenBudget ≤ total + admittedTokens entries ∨ kv.canAllocate w = none)

/-- What the admission loop has done to the queue `rest` and the pool `kv`. -/
structure Admission (running : List Sequence) (tokenBudget slots : ℕ) (rest : List Sequence)
    (processed : List (Sequence × Option ℕ)) (total : ℕ) (kv : BlockPool)
    (entries : List (Sequence × Option ℕ)) (rest' : List Sequence) (kv' : BlockPool) : Prop where
  visited : ∃ visited, rest = visited ++ rest' ∧ List.Forall₂ Visited visited entries
  pool : kv'.Invariant ((running ++ admittedEntries (processed ++ entries)).map Sequence.holder)
  ownBlock : EachOwns ((running ++ admittedEntries (processed ++ entries)).map (·.blockTable))
  content : kv.NoNewContent kv'
  length_le : entries.length ≤ slots
  tokens_le : total + admittedTokens entries ≤ max total tokenBudget
  stops : Admission.Stops tokenBudget slots total entries rest' kv'
  same : admittedEntries entries = [] → kv' = kv
  first : ∀ seq, (admittedEntries entries).head? = some seq → seq.numScheduledTokens =
    min (seq.prefillTargetTokens - seq.numCachedTokens) (tokenBudget - total)

namespace Core

/-- Giving a waiting sequence its blocks when `canAllocate` found room. -/
theorem allocate {kv : BlockPool} {running : List Sequence} {w : Sequence} {k : ℕ}
    (I : kv.Invariant (running.map Sequence.holder)) (hsize : running.length < USIZE_MAX)
    (hw : w.WaitingOk) (hpos : 0 < w.numTokens) (hcan : kv.canAllocate w = some k) :
    ∃ kv' seq, BlockPool.allocate k (kv, w) = .ok () (kv', seq) ∧ Allocated w seq ∧
      kv'.Invariant ((running ++ [seq]).map Sequence.holder) ∧
      (∃ b ∈ seq.blockTable, ∀ table ∈ running.map (·.blockTable), b ∉ table) ∧
      kv.NoNewContent kv' := by
  obtain ⟨kv', fresh, hrun, hhits, hlen, hk, I', hfresh, hcontent⟩ := I.allocate
    (by simpa using hsize) hw.table hw.numTokens (Sequence.numBlocks_pos hpos) hcan
  refine ⟨kv', _, hrun, ⟨rfl, ?_, k, rfl, hk⟩, ?_, ?_, hcontent⟩
  · simp only [List.length_append, hhits]
    exact hlen
  · rw [List.map_append]
    exact I'.perm (List.perm_append_singleton _ _).symm
  · obtain ⟨b, hb⟩ := List.exists_mem_of_length_pos (l := fresh) (by omega)
    refine ⟨b, List.mem_append_right _ hb, fun table htable => ?_⟩
    obtain ⟨older, holder, rfl⟩ := List.mem_map.mp htable
    exact hfresh b hb older.holder (List.mem_map_of_mem holder)

/-- **The admission loop.** It visits a prefix of the queue and ends for one of its reasons. -/
theorem admitLoop {running : List Sequence} (tokenBudget slots : ℕ) :
    ∀ {rest : List Sequence} (processed : List (Sequence × Option ℕ)) (total : ℕ)
      {kv : BlockPool},
      kv.Invariant ((running ++ admittedEntries processed).map Sequence.holder) →
      EachOwns ((running ++ admittedEntries processed).map (·.blockTable)) →
      (running ++ admittedEntries processed).length + slots ≤ USIZE_MAX →
      (∀ w ∈ rest, w.WaitingOk) →
      ∃ entries rest' kv', Scheduler.admitLoop tokenBudget slots rest processed total kv =
          .ok () (processed ++ entries, rest', kv') ∧
        Admission running tokenBudget slots rest processed total kv entries rest' kv' := by
  induction slots with
  | zero =>
    intro rest processed total kv I hown _ _
    refine ⟨[], rest, kv, by simp [Scheduler.admitLoop], ?_⟩
    exact ⟨⟨[], rfl, .nil⟩, by simpa using I, by simpa using hown, .refl kv, le_refl _,
      by simp [admittedTokens], .inl rfl, fun _ => rfl, by simp⟩
  | succ slots ih =>
    intro rest processed total kv I hown hbound hwaiting
    have hstop : Admission.Stops tokenBudget (slots + 1) total [] rest kv →
        Admission running tokenBudget (slots + 1) rest processed total kv [] rest kv :=
      fun hstops => ⟨⟨[], rfl, .nil⟩, by simpa using I, by simpa using hown, .refl kv,
        Nat.zero_le _, by simp [admittedTokens], hstops, fun _ => rfl, by simp⟩
    cases rest with
    | nil => exact ⟨[], [], kv, by simp [Scheduler.admitLoop], hstop (.inr (.inl rfl))⟩
    | cons w tail =>
      have hw := hwaiting w List.mem_cons_self
      have htail : ∀ q ∈ tail, q.WaitingOk := fun q hq => hwaiting q (List.mem_cons_of_mem _ hq)
      have hwork : w.prefillTargetTokens - w.numCachedTokens = w.numTokens := by
        rw [hw.target, hw.cached, Nat.sub_zero]
      by_cases hzero : w.numTokens = 0
      · -- a sequence without work stays where it is
        obtain ⟨entries, rest', kv', hrun, A⟩ := ih (processed ++ [(w, none)]) total
          (by simpa using I) (by simpa using hown)
          (by
            simp only [admittedEntries_append, admittedEntries_skipped, admittedEntries_nil,
              List.append_nil]
            omega) htail
        obtain ⟨visited, hrest, hvisited⟩ := A.visited
        refine ⟨(w, none) :: entries, rest', kv', ?_, ⟨w :: visited, by rw [hrest]; rfl,
          .cons (.skipped hzero) hvisited⟩, by simpa using A.pool, by simpa using A.ownBlock,
          A.content, by simpa using A.length_le, A.tokens_le, ?_, A.same, A.first⟩
        · rw [Scheduler.admitLoop, if_pos (by rw [hwork, hzero]), hrun, List.append_assoc]
          rfl
        · exact A.stops.imp (fun h => by rw [List.length_cons, h]) id
      · have hpos : 0 < w.numTokens := Nat.pos_of_ne_zero hzero
        by_cases hbudget : tokenBudget - total = 0
        · refine ⟨[], w :: tail, kv, ?_, hstop (.inr (.inr ⟨w, tail, rfl, hpos, .inl ?_⟩))⟩
          · rw [Scheduler.admitLoop, if_neg (by rw [hwork]; exact hzero), if_pos hbudget,
              List.append_nil]
          · exact (Nat.sub_eq_zero_iff_le.mp hbudget).trans (Nat.le_add_right _ _)
        · cases hcan : kv.canAllocate w with
          | none =>
            refine ⟨[], w :: tail, kv, ?_, hstop (.inr (.inr ⟨w, tail, rfl, hpos, .inr hcan⟩))⟩
            rw [Scheduler.admitLoop, if_neg (by rw [hwork]; exact hzero), if_neg hbudget, hcan,
              List.append_nil]
          | some k =>
            obtain ⟨kv₁, seq, hrun₁, halloc, I₁, hfresh, hcontent₁⟩ :=
              allocate I (by omega) hw hpos hcan
            have hlt := halloc.cached_lt
            have hremaining : seq.prefillTargetTokens - seq.numCachedTokens =
                w.numTokens - seq.numCachedTokens := by
              rw [halloc.target, hw.target]
            set n := min (seq.prefillTargetTokens - seq.numCachedTokens) (tokenBudget - total)
              with hn
            have hnpos : n ≠ 0 := by omega
            obtain ⟨entries, rest', kv', hrun, A⟩ := ih
              (processed ++ [(seq, some n)]) (total + n)
              (by simpa [Sequence.holder, Sequence.admitted, ← List.append_assoc] using I₁)
              (by
                rw [admittedEntries_append, ← List.append_assoc, List.map_append]
                exact hown.snoc hfresh)
              (by
                simp only [admittedEntries_append, admittedEntries_admitted,
                  admittedEntries_nil, List.length_append, List.length_singleton] at hbound ⊢
                omega) htail
            obtain ⟨visited, hrest, hvisited⟩ := A.visited
            have hcount : admittedTokens ((seq, some n) :: entries) = n + admittedTokens entries := by
              simp [admittedTokens, Sequence.admitted]
            have htokens := A.tokens_le
            refine ⟨(seq, some n) :: entries, rest', kv', ?_, ⟨w :: visited, by rw [hrest]; rfl,
              .cons (.admitted halloc (Nat.pos_of_ne_zero hnpos) (by omega)) hvisited⟩,
              by simpa using A.pool, by simpa using A.ownBlock, hcontent₁.trans A.content,
              by simpa using A.length_le, by omega, ?_, fun h => by simp at h, fun first hfirst => ?_⟩
            · rw [Scheduler.admitLoop, if_neg (by rw [hwork]; exact hzero), if_neg hbudget, hcan]
              simp only [hrun₁]
              rw [if_neg hnpos, hrun, List.append_assoc]
              rfl
            · refine A.stops.imp (fun h => by rw [List.length_cons, h]) (.imp id ?_)
              rintro ⟨q, tail', hq, hqpos, h⟩
              exact ⟨q, tail', hq, hqpos, h.imp_left fun h => by omega⟩
            · obtain rfl : seq.admitted n = first := by simpa using hfirst
              rfl

end Core

/-! ### The whole admission -/

omit [HashFunction] in
/-- A sequence as admission leaves it: only leading full blocks are cached, and a part of the
rest is scheduled. -/
structure Sequence.FreshlyAdmitted (seq : Sequence) : Prop where
  prefilling : seq.Prefilling
  cached_dvd : BLOCK_SIZE ∣ seq.numCachedTokens
  scheduled_pos : 0 < seq.numScheduledTokens
  scheduled_le : seq.numCachedTokens + seq.numScheduledTokens ≤ seq.numTokens

omit [HashFunction] in
/-- The admitted entries of a visited queue. -/
theorem of_mem_admittedEntries {visited : List Sequence} {entries : List (Sequence × Option ℕ)}
    (h : List.Forall₂ Visited visited entries) (hw : ∀ w ∈ visited, w.WaitingOk) {seq : Sequence}
    (hseq : seq ∈ admittedEntries entries) : seq.RunningOk ∧ seq.FreshlyAdmitted := by
  induction h with
  | nil => cases hseq
  | @cons w entry visited entries hentry _ ih =>
    have ih := ih fun q hq => hw q (List.mem_cons_of_mem _ hq)
    cases hentry with
    | skipped => exact ih hseq
    | @admitted seq' n halloc hpos hle =>
      rw [admittedEntries_admitted] at hseq
      rcases List.mem_cons.mp hseq with rfl | hseq
      · have hwait := hw w List.mem_cons_self
        obtain ⟨k, hk, -⟩ := halloc.cached
        exact ⟨halloc.runningOk hwait n, halloc.prefilling hwait n, ⟨k, hk⟩, hpos,
          hle.trans halloc.numTokens.symm.le⟩
      · exact ih hseq

omit [HashFunction] in
/-- The kept entries of a visited queue still wait. -/
theorem of_mem_keptEntries {visited : List Sequence} {entries : List (Sequence × Option ℕ)}
    (h : List.Forall₂ Visited visited entries) (hw : ∀ w ∈ visited, w.WaitingOk) {seq : Sequence}
    (hseq : seq ∈ keptEntries entries) : seq.WaitingOk ∧ seq.numTokens = 0 := by
  induction h with
  | nil => cases hseq
  | @cons w entry visited entries hentry _ ih =>
    have ih := ih fun q hq => hw q (List.mem_cons_of_mem _ hq)
    cases hentry with
    | skipped hzero =>
      rw [keptEntries_skipped] at hseq
      rcases List.mem_cons.mp hseq with rfl | hseq
      · exact ⟨hw _ List.mem_cons_self, hzero⟩
      · exact ih hseq
    | admitted => exact ih hseq

omit [HashFunction] in
/-- Admitted and kept entries together are the visited requests. -/
theorem requests_entries_perm {visited : List Sequence} {entries : List (Sequence × Option ℕ)}
    (h : List.Forall₂ Visited visited entries) :
    ((admittedEntries entries ++ keptEntries entries).map Sequence.request).Perm
      (visited.map Sequence.request) := by
  induction h with
  | nil => rfl
  | @cons w entry visited entries hentry _ ih =>
    cases hentry with
    | skipped =>
      rw [admittedEntries_skipped, keptEntries_skipped]
      refine (List.perm_middle.map _).trans ?_
      exact ih.cons _
    | @admitted seq n halloc =>
      rw [admittedEntries_admitted, keptEntries_admitted, List.cons_append, List.map_cons,
        List.map_cons, show (seq.admitted n).request = w.request from halloc.request]
      exact ih.cons _

omit [HashFunction] in
/-- Without idle sequences everything visited is admitted, in order. -/
theorem entries_of_pos {visited : List Sequence} {entries : List (Sequence × Option ℕ)}
    (h : List.Forall₂ Visited visited entries) (hpos : ∀ w ∈ visited, 0 < w.numTokens) :
    keptEntries entries = [] ∧
      (admittedEntries entries).map Sequence.request = visited.map Sequence.request := by
  induction h with
  | nil => exact ⟨rfl, rfl⟩
  | @cons w entry visited entries hentry _ ih =>
    obtain ⟨hkept, hadmitted⟩ := ih fun q hq => hpos q (List.mem_cons_of_mem _ hq)
    cases hentry with
    | skipped hzero => exact absurd hzero (hpos w List.mem_cons_self).ne'
    | @admitted seq n halloc =>
      refine ⟨hkept, ?_⟩
      rw [admittedEntries_admitted, List.map_cons, List.map_cons, hadmitted,
        show (seq.admitted n).request = w.request from halloc.request]

omit [HashFunction] in
theorem length_admittedEntries_le (entries : List (Sequence × Option ℕ)) :
    (admittedEntries entries).length ≤ entries.length :=
  List.length_filterMap_le _ _

/-- The scheduler after an admission. -/
def Scheduler.withAdmitted (s : Scheduler) (admitted waiting : List Sequence) : Scheduler :=
  { s with running := s.running ++ admitted, waiting := waiting }

/-- What an admission with `tokenBudget` tokens has done. -/
structure Admits (s : Scheduler) (kv : BlockPool) (tokenBudget : ℕ) (admitted waiting : List Sequence)
    (kv' : BlockPool) : Prop where
  core : Core (s.withAdmitted admitted waiting) kv'
  fresh : ∀ seq ∈ admitted, seq.FreshlyAdmitted
  requests : (s.withAdmitted admitted waiting).requests.Perm s.requests
  ordered : (∀ w ∈ s.waiting, 0 < w.numTokens) →
    (s.withAdmitted admitted waiting).requests = s.requests
  content : kv.NoNewContent kv'
  tokens_le : (admitted.map (·.numScheduledTokens)).sum ≤ tokenBudget
  first : ∀ seq, admitted.head? = some seq → seq.numScheduledTokens =
    min (seq.prefillTargetTokens - seq.numCachedTokens) tokenBudget
  idle : admitted = [] → kv' = kv ∧ ((∀ w ∈ s.waiting, 0 < w.numTokens) → waiting = s.waiting ∧
    (s.waiting = [] ∨ s.maxNumSeqs.val ≤ s.running.length ∨
      ∃ w tail, s.waiting = w :: tail ∧ (tokenBudget = 0 ∨ kv.canAllocate w = none)))

/-- **Admission.** `schedulePrefillWithBudget` succeeds and keeps the invariant. -/
theorem Core.schedulePrefillWithBudget {s : Scheduler} {kv : BlockPool} (C : Core s kv)
    (tokenBudget : ℕ) :
    ∃ admitted waiting kv',
      Scheduler.schedulePrefillWithBudget tokenBudget (s, kv) =
        .ok ⟨.prefill, false, none⟩ (s.withAdmitted admitted waiting, kv') ∧
      Admits s kv tokenBudget admitted waiting kv' := by
  by_cases hempty : s.waiting = []
  · have hsame : s.withAdmitted [] s.waiting = s := by simp [Scheduler.withAdmitted]
    refine ⟨[], s.waiting, kv, by rw [hsame, Scheduler.schedulePrefillWithBudget, if_pos hempty],
      hsame.symm ▸ C, by simp, by rw [hsame], fun _ => by rw [hsame], .refl kv, by simp, by simp,
      fun _ => ⟨rfl, fun _ => ⟨rfl, .inl hempty⟩⟩⟩
  · have hlength := C.length_le
    have hmax := s.maxNumSeqs.property
    have hpool : kv.Invariant ((s.running ++ admittedEntries []).map Sequence.holder) := by
      simpa [Scheduler.holders] using C.pool
    obtain ⟨entries, rest, kv', hrun, A⟩ := Core.admitLoop tokenBudget
      (s.maxNumSeqs.val - s.running.length) [] 0 hpool (by simpa using C.ownBlock)
      (by simp only [admittedEntries_nil, List.append_nil]; omega) C.waiting
    obtain ⟨visited, hsplit, hvisited⟩ := A.visited
    have hwaiting : ∀ w ∈ visited, w.WaitingOk := fun w hw =>
      C.waiting w (hsplit ▸ List.mem_append_left _ hw)
    have hrequests : (s.withAdmitted (admittedEntries entries) (keptEntries entries ++ rest)).requests =
        s.running.map Sequence.request ++
          ((admittedEntries entries ++ keptEntries entries).map Sequence.request ++
            rest.map Sequence.request) := by
      simp [Scheduler.requests, Scheduler.withAdmitted]
    have hbefore : s.requests = s.running.map Sequence.request ++
        (visited.map Sequence.request ++ rest.map Sequence.request) := by
      simp [Scheduler.requests, hsplit]
    have hperm : (s.withAdmitted (admittedEntries entries) (keptEntries entries ++ rest)).requests.Perm
        s.requests := by
      rw [hrequests, hbefore]
      exact ((requests_entries_perm hvisited).append_right _).append_left _
    refine ⟨admittedEntries entries, keptEntries entries ++ rest, kv', ?_, ?_⟩
    · rw [Scheduler.schedulePrefillWithBudget, if_neg hempty, hrun]
      rfl
    · refine ⟨⟨?_, ?_, ?_, ?_, ?_, C.identified.perm hperm.symm, C.nextRequestId⟩,
        fun seq hseq => (of_mem_admittedEntries hvisited hwaiting hseq).2, hperm, fun hpos => ?_,
        A.content, by simpa [admittedTokens] using A.tokens_le, A.first,
        fun hnone => ⟨A.same hnone, ?_⟩⟩
      · simpa [Scheduler.holders, Scheduler.withAdmitted] using A.pool
      · intro seq hseq
        rcases List.mem_append.mp hseq with hseq | hseq
        · exact C.running seq hseq
        · exact (of_mem_admittedEntries hvisited hwaiting hseq).1
      · intro seq hseq
        rcases List.mem_append.mp hseq with hseq | hseq
        · exact (of_mem_keptEntries hvisited hwaiting hseq).1
        · exact C.waiting seq (hsplit ▸ List.mem_append_right _ hseq)
      · simpa [Scheduler.withAdmitted] using A.ownBlock
      · have hle := length_admittedEntries_le entries
        have hslots := A.length_le
        simp only [Scheduler.withAdmitted, List.length_append]
        omega
      · obtain ⟨hkept, hadmitted⟩ := entries_of_pos hvisited fun w hw =>
          hpos w (hsplit ▸ List.mem_append_left _ hw)
        rw [hrequests, hbefore, hkept, List.append_nil, hadmitted]
      · intro hpos
        obtain ⟨hkept, hadmitted⟩ := entries_of_pos hvisited fun w hw =>
          hpos w (hsplit ▸ List.mem_append_left _ hw)
        obtain rfl : visited = [] := by simpa [hnone] using hadmitted.symm
        obtain rfl : entries = [] := by simpa using hvisited
        have hkv := A.same hnone
        refine ⟨by simp [hsplit], ?_⟩
        rcases A.stops with h | h | ⟨w, tail, h, -, hstop⟩
        · exact .inr (.inl (by simp only [List.length_nil] at h; omega))
        · exact absurd (hsplit.trans h) hempty
        · refine .inr (.inr ⟨w, tail, hsplit.trans h, ?_⟩)
          rw [hkv] at hstop
          exact hstop.imp_left fun h => by simpa [admittedTokens] using h

end VllmOxide
