import Mathlib.Algebra.Order.Group.Nat
import Mathlib.Data.List.Induction
import VllmOxide.Library.Outcome

/-!
# Memory whose cells may be unwritten

A buffer on a device is a list of cells. A cell that nothing has written holds no value, and reading
it is a fault, as is reading or writing outside the buffer. A program that runs without fault from
buffers without any value depends on nothing that an earlier program left there.

## Main definitions

* `Cells`, `Cells.read`, `Cells.write`, `Cells.readFirst`, `Cells.writeFirst`: buffers and accesses.
* `Cells.filledTo`, `Cells.forgetFirst`: a buffer in the middle of being filled, and one that lost
  the values in its first cells.
* `forThreads`: the threads of a launch, one after the other.

## Main results

* `forThreads_invariant`, `foldlM_zipIdx_invariant`: what every thread, or item, passes on holds at
  the end.
* `Cells.readFirst_filled`: a buffer that was filled reads as what it was filled with.
-/

namespace VllmOxide

/-- What may go wrong with memory. -/
inductive MemoryFault
  | unwritten
  | outOfBounds
deriving DecidableEq

/-- The cells of a buffer; `none` is a cell that was never written. -/
abbrev Cells (α : Type) := List (Option α)

namespace Cells

variable {α : Type}

/-- Read one cell. -/
def read (cells : Cells α) (i : ℕ) : Except MemoryFault α :=
  match cells[i]? with
  | none => .error .outOfBounds
  | some none => .error .unwritten
  | some (some v) => .ok v

/-- Write one cell. -/
def write (cells : Cells α) (i : ℕ) (v : α) : Except MemoryFault (Cells α) :=
  if i < cells.length then .ok (cells.set i (some v)) else .error .outOfBounds

/-- Read the first `n` cells. -/
def readFirst (cells : Cells α) (n : ℕ) : Except MemoryFault (List α) :=
  (List.range n).mapM cells.read

/-- Write the first cells. -/
def writeFirst (cells : Cells α) (vs : List α) : Except MemoryFault (Cells α) :=
  if vs.length ≤ cells.length then .ok (vs.map some ++ cells.drop vs.length)
  else .error .outOfBounds

theorem read_of_getElem? {cells : Cells α} {i : ℕ} {v : α} (h : cells[i]? = some (some v)) :
    cells.read i = .ok v := by
  rw [read, h]

theorem write_of_lt {cells : Cells α} {i : ℕ} (v : α) (h : i < cells.length) :
    cells.write i v = .ok (cells.set i (some v)) :=
  if_pos h

theorem read_set {cells : Cells α} {i : ℕ} (v : α) (h : i < cells.length) :
    Cells.read (cells.set i (some v)) i = .ok v :=
  read_of_getElem? (by simp [h])

theorem read_filled {vs : List α} {i : ℕ} (h : i < vs.length) :
    Cells.read (vs.map some) i = .ok vs[i] :=
  read_of_getElem? (by simp [h])

theorem writeFirst_of_length {cells : Cells α} {vs : List α} (h : vs.length = cells.length) :
    cells.writeFirst vs = .ok (vs.map some) := by
  rw [writeFirst, if_pos h.le, h, List.drop_length, List.append_nil]

/-- The first cells of a buffer after they were written. -/
theorem read_append_map {vs : List α} {rest : Cells α} {i : ℕ} {v : α} (h : vs[i]? = some v) :
    Cells.read (vs.map some ++ rest) i = .ok v := by
  refine read_of_getElem? ?_
  have hlt := (List.getElem?_eq_some_iff.mp h).1
  rw [List.getElem?_append_left (by rwa [List.length_map]), List.getElem?_map, h]
  rfl

/-- A buffer that starts with given values reads as them. -/
theorem readFirst_eq (cells : Cells α) (vs : List α)
    (h : ∀ i (hi : i < vs.length), cells.read i = .ok vs[i]) :
    cells.readFirst vs.length = .ok vs :=
  mapM_range_eq_ok vs h

/-- A filled buffer reads as its values, and so does the first part of it. -/
theorem readFirst_filled {vs : List α} {n : ℕ} (h : n ≤ vs.length) :
    Cells.readFirst (vs.map some) n = .ok (vs.take n) := by
  have hlength : (vs.take n).length = n := by simp [h]
  have hread := readFirst_eq (vs.map some) (vs.take n) fun i hi => by
    rw [hlength] at hi
    rw [read_filled (hi.trans_le h), List.getElem_take]
  rwa [hlength] at hread

/-- A buffer whose first `i` cells were filled. -/
def filledTo (cells : Cells α) (vs : List α) (i : ℕ) : Cells α :=
  (vs.take i).map some ++ cells.drop i

theorem filledTo_length {cells : Cells α} {vs : List α} (h : vs.length = cells.length) :
    cells.filledTo vs vs.length = vs.map some := by
  rw [filledTo, List.take_length, h, List.drop_length, List.append_nil]

theorem length_filledTo {cells : Cells α} {vs : List α} (h : vs.length = cells.length) (i : ℕ) :
    (cells.filledTo vs i).length = cells.length := by
  rw [filledTo, List.length_append, List.length_map, List.length_take, List.length_drop]
  omega

/-- The next cell still holds what it held. -/
theorem read_filledTo {cells : Cells α} {vs : List α} {i : ℕ} (hi : i ≤ vs.length) :
    (cells.filledTo vs i).read i = cells.read i := by
  have hlength : ((vs.take i).map some).length = i := by simp [hi]
  rw [read, read, filledTo, List.getElem?_append_right hlength.le, hlength, Nat.sub_self,
    List.getElem?_drop, Nat.add_zero]

/-- Filling the next cell. -/
theorem write_filledTo {cells : Cells α} {vs : List α} {i : ℕ} (hi : i < vs.length)
    (h : vs.length = cells.length) :
    (cells.filledTo vs i).write i vs[i] = .ok (cells.filledTo vs (i + 1)) := by
  have hlength : ((vs.take i).map some).length = i := by simp [hi.le]
  rw [write_of_lt _ (by rwa [length_filledTo h, ← h]), filledTo, filledTo,
    List.set_append_right _ _ hlength.le, hlength, Nat.sub_self,
    List.drop_eq_getElem_cons (h ▸ hi), List.set_cons_zero, List.take_succ_eq_append_getElem hi,
    List.map_append, List.map_singleton, List.append_assoc, List.singleton_append]

/-- A buffer whose first cells lost what was written to them. -/
def forgetFirst (cells : Cells α) (n : ℕ) : Cells α :=
  cells.mapIdx fun i cell => if i < n then none else cell

@[simp] theorem length_forgetFirst (cells : Cells α) (n : ℕ) :
    (cells.forgetFirst n).length = cells.length :=
  List.length_mapIdx

theorem read_forgetFirst {cells : Cells α} {n i : ℕ} (hi : n ≤ i) :
    (cells.forgetFirst n).read i = cells.read i := by
  have hcell : (cells.forgetFirst n)[i]? = cells[i]? := by
    rw [forgetFirst, List.getElem?_mapIdx]
    cases cells[i]? with
    | none => rfl
    | some cell => exact congrArg some (if_neg (not_lt.mpr hi))
  rw [read, read, hcell]

end Cells

/-! ### Launches -/

section Launch

variable {σ ε : Type}

/-- The threads of a launch, in the order of their indices. -/
def forThreads (n : ℕ) (thread : ℕ → σ → Except ε σ) (s : σ) : Except ε σ :=
  (List.range n).foldlM (fun s index => thread index s) s

theorem forThreads_succ (n : ℕ) (thread : ℕ → σ → Except ε σ) (s : σ) :
    forThreads (n + 1) thread s = forThreads n thread s >>= thread n := by
  rw [forThreads, List.range_succ, List.foldlM_append]
  refine congrArg (forThreads n thread s >>= ·) (funext fun s' => ?_)
  rw [List.foldlM_cons]
  exact bind_pure _

theorem forThreads_congr {thread thread' : ℕ → σ → Except ε σ} {n : ℕ}
    (h : ∀ i < n, thread i = thread' i) (s : σ) :
    forThreads n thread s = forThreads n thread' s := by
  induction n with
  | zero => rfl
  | succ n ih =>
    rw [forThreads_succ, forThreads_succ, ih fun i hi => h i (hi.trans (Nat.lt_succ_self n)),
      h n (Nat.lt_succ_self n)]

/-- Threads past the end of the work do nothing. -/
theorem forThreads_guard {thread : ℕ → σ → Except ε σ} {elements n : ℕ} (hle : elements ≤ n)
    (s : σ) : forThreads n (fun index s => if elements ≤ index then .ok s else thread index s) s =
      forThreads elements thread s := by
  induction n, hle using Nat.le_induction with
  | base => exact forThreads_congr (fun i hi => funext fun s => if_neg (not_le.mpr hi)) s
  | succ n hle ih =>
    have hskip : (fun s : σ => if elements ≤ n then (.ok s : Except ε σ) else thread n s) = pure :=
      funext fun s => if_pos hle
    rw [forThreads_succ, ih, hskip, bind_pure]

/-- **Launches.** What every thread passes on to the next one holds after the last one. -/
theorem forThreads_invariant {thread : ℕ → σ → Except ε σ} {P : ℕ → σ → Prop} {n : ℕ}
    (hstep : ∀ i < n, ∀ s, P i s → ∃ s', thread i s = .ok s' ∧ P (i + 1) s') {s : σ} (h : P 0 s) :
    ∃ s', forThreads n thread s = .ok s' ∧ P n s' := by
  induction n with
  | zero => exact ⟨s, rfl, h⟩
  | succ n ih =>
    obtain ⟨s₁, hrun, h₁⟩ := ih fun i hi => hstep i (hi.trans (Nat.lt_succ_self n))
    obtain ⟨s₂, hthread, h₂⟩ := hstep n (Nat.lt_succ_self n) s₁ h₁
    exact ⟨s₂, by rw [forThreads_succ, hrun]; exact hthread, h₂⟩

/-- A loop over numbered items: what every item passes on holds after the last one. -/
theorem foldlM_zipIdx_invariant {α : Type} (step : σ → α × ℕ → Except ε σ) {P : ℕ → σ → Prop}
    {items : List α} (hstep : ∀ i item, items[i]? = some item → ∀ s, P i s →
      ∃ s', step s (item, i) = .ok s' ∧ P (i + 1) s') {s : σ} (h : P 0 s) :
    ∃ s', items.zipIdx.foldlM step s = .ok s' ∧ P items.length s' := by
  induction items using List.reverseRecOn with
  | nil => exact ⟨s, rfl, h⟩
  | append_singleton items item ih =>
    obtain ⟨s₁, hrun, h₁⟩ := ih fun i item' hitem => hstep i item' (by
      rw [List.getElem?_append_left (List.getElem?_eq_some_iff.mp hitem).1]
      exact hitem)
    obtain ⟨s₂, hlast, h₂⟩ := hstep items.length item (by simp) s₁ h₁
    refine ⟨s₂, ?_, by simpa using h₂⟩
    rw [List.zipIdx_append, List.foldlM_append, hrun]
    simp only [List.zipIdx_singleton, List.foldlM_cons, List.foldlM_nil, Nat.zero_add]
    change step s₁ (item, items.length) >>= _ = _
    rw [hlast]
    rfl

end Launch

end VllmOxide
