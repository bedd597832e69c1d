import VllmOxide.Scheduling.Invariant

/-!
# Preemption

`preemptIfNeeded` takes sequences from the back of the running queue until the next decode batch
fits the free blocks. `Scheduler.preemptTo s n` is the state in which the first `n` running
sequences are left; the loop walks down these states and stops at the first one whose decode batch
fits.

## Main definitions

* `Scheduler.preemptTo`: the running sequences past the first `n` are preempted.
* `Scheduler.DecodeFits`: the condition on which the loop stops.

## Main results

* `Core.preemptIfNeeded`: preemption succeeds, keeps the invariant and leaves a decode batch that
  fits.
-/

namespace VllmOxide

namespace Scheduler

/-- The state with only the first `n` running sequences left. -/
def preemptTo (s : Scheduler) (n : ℕ) : Scheduler :=
  { s with
    running := s.running.take n
    waiting := (s.running.drop n).map (fun seq => (BlockPool.released seq).preempted) ++ s.waiting }

@[simp] theorem preemptTo_running (s : Scheduler) (n : ℕ) :
    (s.preemptTo n).running = s.running.take n := rfl

theorem preemptTo_of_length_le {s : Scheduler} {n : ℕ} (h : s.running.length ≤ n) :
    s.preemptTo n = s := by
  simp [preemptTo, List.take_of_length_le h, List.drop_of_length_le h]

theorem getLast?_preemptTo (s : Scheduler) {n : ℕ} (hn : n < s.running.length) :
    (s.preemptTo (n + 1)).running.getLast? = some s.running[n] := by
  rw [preemptTo_running, List.getLast?_take]
  simp [hn]

/-- Preempting one more sequence. -/
theorem preemptTo_succ (s : Scheduler) {n : ℕ} (hn : n < s.running.length) :
    { s.preemptTo (n + 1) with
      running := (s.preemptTo (n + 1)).running.dropLast
      waiting := (BlockPool.released s.running[n]).preempted :: (s.preemptTo (n + 1)).waiting } =
      s.preemptTo n := by
  have hrunning : (s.running.take (n + 1)).dropLast = s.running.take n := by
    simp [List.dropLast_eq_take, List.take_take, Nat.min_eq_left (Nat.succ_le_of_lt hn)]
  simp only [preemptTo, hrunning, List.drop_eq_getElem_cons hn, List.map_cons, List.cons_append]

/-- The live requests are the same before and after. -/
theorem requests_preemptTo (s : Scheduler) (n : ℕ) : (s.preemptTo n).requests = s.requests := by
  have hmap : ((s.running.drop n).map fun seq =>
      (BlockPool.released seq).preempted).map Sequence.request =
      (s.running.drop n).map Sequence.request := by
    rw [List.map_map]
    rfl
  simp only [requests, preemptTo, List.map_append, hmap]
  rw [← List.append_assoc, ← List.map_append, List.take_append_drop]

variable [HashFunction]

/-- The decode batch of the next decision fits the free blocks. -/
def DecodeFits (s : Scheduler) (kv : BlockPool) : Prop :=
  kv.canAppendBatch (decodeBatch (s.runningBudget kv) s.running) = true

instance (s : Scheduler) (kv : BlockPool) : Decidable (s.DecodeFits kv) :=
  inferInstanceAs (Decidable (_ = _))

theorem preemptLoop_of_fits {s : Scheduler} {kv : BlockPool} (rounds : ℕ) (h : s.DecodeFits kv) :
    preemptLoop (rounds + 1) (s, kv) = .ok () (s, kv) := by
  rw [DecodeFits] at h
  simp only [preemptLoop, h, if_true]

theorem preemptLoop_of_not_fits {s : Scheduler} {kv kv' : BlockPool} {victim : Sequence}
    (rounds : ℕ) (h : ¬ s.DecodeFits kv) (hlast : s.running.getLast? = some victim)
    (hdeallocate : kv.deallocate victim = .ok (kv', BlockPool.released victim)) :
    preemptLoop (rounds + 1) (s, kv) = preemptLoop rounds
      ({ s with
          running := s.running.dropLast
          waiting := (BlockPool.released victim).preempted :: s.waiting }, kv') := by
  rw [DecodeFits] at h
  simp only [preemptLoop, h, if_false, hlast, hdeallocate, Bool.false_eq_true]

end Scheduler

variable [HashFunction]

namespace Core

variable {s : Scheduler} {kv : BlockPool}

/-- One round of the preemption loop that takes a victim. -/
theorem preemptOne {n : ℕ} (hn : n < s.running.length) (C : Core (s.preemptTo (n + 1)) kv) :
    ∃ kv', kv.deallocate s.running[n] = .ok (kv', BlockPool.released s.running[n]) ∧
      kv.SameContent kv' ∧ Core (s.preemptTo n) kv' := by
  have hlast := s.getLast?_preemptTo hn
  obtain ⟨kv', hrun, hsame, hcore⟩ := C.pop hlast
  refine ⟨kv', hrun, hsame, ?_⟩
  rw [← s.preemptTo_succ hn]
  exact hcore _ (C.running _ (List.mem_of_getLast? hlast)).preempted rfl

/-- The preemption loop from the state with `m` sequences left. It ends in a state with `n` of
them; the state before the last preemption, if there was one, did not fit. -/
theorem preemptLoop {m : ℕ} (rounds : ℕ) (hm : m ≤ s.running.length) (hrounds : m < rounds) :
    ∀ {kv : BlockPool}, Core (s.preemptTo m) kv →
      ∃ n kv', n ≤ m ∧ Scheduler.preemptLoop rounds (s.preemptTo m, kv) =
          .ok () (s.preemptTo n, kv') ∧
        Core (s.preemptTo n) kv' ∧ kv.SameContent kv' ∧ (s.preemptTo n).DecodeFits kv' ∧
        ((n = m ∧ kv' = kv) ∨
          ∃ kv₁, n < m ∧ Core (s.preemptTo (n + 1)) kv₁ ∧ kv.SameContent kv₁ ∧
            ¬ (s.preemptTo (n + 1)).DecodeFits kv₁) := by
  induction m generalizing rounds with
  | zero =>
    intro kv C
    obtain ⟨rounds, rfl⟩ : ∃ r, rounds = r + 1 := ⟨rounds - 1, by omega⟩
    have hfits : (s.preemptTo 0).DecodeFits kv := by
      simp [Scheduler.DecodeFits, Scheduler.decodeBatch, BlockPool.canAppendBatch,
        BlockPool.requiredBlocks]
    exact ⟨0, kv, le_refl _, Scheduler.preemptLoop_of_fits rounds hfits, C, .refl kv, hfits,
      .inl ⟨rfl, rfl⟩⟩
  | succ m ih =>
    intro kv C
    obtain ⟨rounds, rfl⟩ : ∃ r, rounds = r + 1 := ⟨rounds - 1, by omega⟩
    by_cases hfits : (s.preemptTo (m + 1)).DecodeFits kv
    · exact ⟨m + 1, kv, le_refl _, Scheduler.preemptLoop_of_fits rounds hfits, C, .refl kv,
        hfits, .inl ⟨rfl, rfl⟩⟩
    · have hlt : m < s.running.length := by omega
      obtain ⟨kv₁, hdeallocate, hsame₁, C₁⟩ := C.preemptOne hlt
      obtain ⟨n, kv', hn, hrun, C', hsame, hfits', hlast⟩ :=
        ih rounds (by omega) (by omega) C₁
      refine ⟨n, kv', by omega, ?_, C', hsame₁.trans hsame, hfits', .inr ?_⟩
      · rw [Scheduler.preemptLoop_of_not_fits rounds hfits (s.getLast?_preemptTo hlt) hdeallocate,
          s.preemptTo_succ hlt, hrun]
      · rcases hlast with ⟨rfl, rfl⟩ | ⟨kv₂, hn₂, C₂, hsame₂, hnot⟩
        · exact ⟨kv, by omega, C, .refl kv, hfits⟩
        · exact ⟨kv₂, by omega, C₂, hsame₁.trans hsame₂, hnot⟩

/-- **Preemption.** `preemptIfNeeded` succeeds and keeps a prefix of the running queue whose decode
batch fits; whatever it preempted last was preempted because the batch did not fit before. -/
theorem preemptIfNeeded (C : Core s kv) :
    ∃ n kv', n ≤ s.running.length ∧ Scheduler.preemptIfNeeded (s, kv) =
        .ok () (s.preemptTo n, kv') ∧
      Core (s.preemptTo n) kv' ∧ kv.SameContent kv' ∧ (s.preemptTo n).DecodeFits kv' ∧
      ((n = s.running.length ∧ kv' = kv) ∨
        ∃ kv₁, n < s.running.length ∧ Core (s.preemptTo (n + 1)) kv₁ ∧ kv.SameContent kv₁ ∧
          ¬ (s.preemptTo (n + 1)).DecodeFits kv₁) := by
  have heq : s.preemptTo s.running.length = s := Scheduler.preemptTo_of_length_le (le_refl _)
  have C₀ : Core (s.preemptTo s.running.length) kv := heq.symm ▸ C
  have h := preemptLoop (s.running.length + 1) (le_refl _) (by omega) C₀
  rw [heq] at h
  exact h

end Core

end VllmOxide
