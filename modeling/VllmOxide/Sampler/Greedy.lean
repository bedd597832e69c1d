import Mathlib.Tactic.Positivity
import VllmOxide.Library.BlockReduction
import VllmOxide.Sampler.Device

/-!
# The greedy kernel

`greedy_argmax_kernel` with a block of `kThreads` threads: every thread scans its tokens, and a
halving tree merges what they found. A thread that saw nothing but NaN holds a sentinel.

The sampler kernels are built with `--use_fast_math`, so a comparison of `float` values reads a
subnormal operand as zero. The kernel therefore finds the lowest index among the maxima of the
row as its comparisons read it. Most rows have the same lowest maximum either way. It differs from
the one that the host scan finds when the maximum is zero or subnormal and another zero or
subnormal entry stands before it.

## Main definitions

* `flushSubnormal`: an operand of a comparison on the device.
* `betterCandidate`, `greedyScan`, `greedyArgmaxKernel`: the kernel.
* `IsLowestMaximum`: the lowest index among the maxima of the entries that are not a NaN.

## Main results

* `isLowestMaximum_argmaxBuf`, `isLowestMaximum_greedyArgmaxKernel`: what the two scans find.
* `greedyArgmaxKernel_eq_iff`: they find the same token exactly if no entry in front of the lowest
  maximum is read as equal to it.
-/

namespace VllmOxide.Sampler

open Extended

variable {R : Type*} [Field R] [LinearOrder R]

/-! ### The kernel -/

/-- `UINT32_MAX`, the token of a thread that saw no entry. -/
def UINT32_MAX : ℕ :=
  2 ^ 32 - 1

/-- What a comparison reads under `--use_fast_math`: a value below the smallest normal one in
magnitude counts as zero. -/
def flushSubnormal : Extended R → Extended R
  | finite v => if |v| < 1 / (2 ^ 126 : ℕ) then 0 else finite v
  | v => v

/-- A score and its token. -/
structure Candidate (R : Type*) where
  score : Extended R
  token : ℕ

/-- `better_candidate`. -/
def betterCandidate (candidate best : Candidate R) : Bool :=
  if candidate.score.isNan then false
  else
    decide (best.token = UINT32_MAX) ||
      decide (flushSubnormal best.score < flushSubnormal candidate.score) ||
        ((flushSubnormal candidate.score == flushSubnormal best.score) &&
          decide (candidate.token < best.token))

/-- A better candidate replaces the best one. -/
def takeBetter (candidate best : Candidate R) : Candidate R :=
  if betterCandidate candidate best then candidate else best

/-- The loop of one thread. It runs at most once for each token. -/
def greedyScan (logits : List (Extended R)) : (rounds token : ℕ) → Candidate R → Candidate R
  | 0, _, best => best
  | rounds + 1, token, best =>
    if token < logits.length then
      greedyScan logits rounds (wrap32 (token + kThreads)) (takeBetter ⟨entry logits token, token⟩ best)
    else best

/-- `greedy_argmax_kernel`, for one row. -/
def greedyArgmaxKernel (logits : List (Extended R)) : ℕ :=
  let cells := fun threadIdx =>
    greedyScan logits logits.length threadIdx ⟨negInf, UINT32_MAX⟩
  let best := halvingTree takeBetter (kThreads / 2) cells 0
  if best.token = UINT32_MAX then 0 else best.token

/-! ### The lowest maximum of a row -/

/-- The lowest index among the maxima of the entries that are not a NaN. -/
structure IsLowestMaximum (row : List (Extended R)) (i : ℕ) : Prop where
  lt : i < row.length
  ne_nan : entry row i ≠ nan
  greatest : ∀ j < row.length, ¬ entry row i < entry row j
  first : ∀ j < i, entry row j ≠ nan → entry row j < entry row i

omit [Field R] in
theorem IsLowestMaximum.eq {row : List (Extended R)} {i j : ℕ} (hi : IsLowestMaximum row i)
    (hj : IsLowestMaximum row j) : i = j := by
  rcases lt_trichotomy i j with hlt | heq | hlt
  · exact absurd (hj.first i hlt hi.ne_nan) (hi.greatest j hj.lt)
  · exact heq
  · exact absurd (hi.first j hlt hj.ne_nan) (hj.greatest i hi.lt)

omit [Field R] [LinearOrder R] in
theorem entry_append_left {row rest : List (Extended R)} {i : ℕ} (hi : i < row.length) :
    entry (row ++ rest) i = entry row i := by
  simp only [entry, List.getD_eq_getElem?_getD, List.getElem?_append_left hi]

omit [Field R] [LinearOrder R] in
theorem entry_append_length {row : List (Extended R)} {v : Extended R} :
    entry (row ++ [v]) row.length = v := by
  simp [entry, List.getD_eq_getElem?_getD]

omit [Field R] [LinearOrder R] in
theorem exists_entry_of_mem {row : List (Extended R)} {v : Extended R} (hv : v ∈ row) :
    ∃ i < row.length, entry row i = v := by
  obtain ⟨i, hi, rfl⟩ := List.getElem_of_mem hv
  exact ⟨i, hi, by simp [entry, List.getD_eq_getElem?_getD, hi]⟩

omit [Field R] [LinearOrder R] in
theorem entry_mem {row : List (Extended R)} {i : ℕ} (hi : i < row.length) :
    entry row i ∈ row := by
  rw [entry, List.getD_eq_getElem?_getD, List.getElem?_eq_getElem hi, Option.getD_some]
  exact List.getElem_mem hi

omit [Field R] in
/-- One more entry: it is the lowest maximum if it is greater than all before. -/
theorem IsLowestMaximum.snoc {row : List (Extended R)} {i : ℕ} (h : IsLowestMaximum row i)
    (v : Extended R) :
    IsLowestMaximum (row ++ [v]) (if entry row i < v then row.length else i) := by
  have hlast : ∀ {j}, j < (row ++ [v]).length → j < row.length ∨ j = row.length := fun hj => by
    rw [List.length_append, List.length_singleton] at hj
    omega
  split
  · rename_i hlt
    have hne := ne_nan_of_lt_right hlt
    have hbelow : ∀ j < row.length, entry row j ≠ nan → entry row j < v := fun j hj hnan => by
      have hle := h.greatest j hj
      rw [lt_iff_place h.ne_nan hnan] at hle
      rw [lt_iff_place h.ne_nan hne] at hlt
      rw [lt_iff_place hnan hne]
      exact (not_lt.mp hle).trans_lt hlt
    refine ⟨by simp, by rwa [entry_append_length], fun j hj => ?_, fun j hj hnan => ?_⟩
    · rw [entry_append_length]
      rcases hlast hj with hj | rfl
      · rw [entry_append_left hj]
        intro hgt
        have hnan := ne_nan_of_lt_right hgt
        have hless := hbelow j hj hnan
        rw [lt_iff_place hne hnan] at hgt
        rw [lt_iff_place hnan hne] at hless
        exact lt_asymm hgt hless
      · rw [entry_append_length, lt_iff_place hne hne]
        exact lt_irrefl _
    · rw [entry_append_left hj] at hnan ⊢
      rw [entry_append_length]
      exact hbelow j hj hnan
  · rename_i hnot
    have hi : entry (row ++ [v]) i = entry row i := entry_append_left h.lt
    refine ⟨by simp [Nat.lt_succ_of_lt h.lt], by rw [hi]; exact h.ne_nan, fun j hj => ?_,
      fun j hj hnan => ?_⟩
    · rw [hi]
      rcases hlast hj with hj | rfl
      · rw [entry_append_left hj]
        exact h.greatest j hj
      · rwa [entry_append_length]
    · rw [entry_append_left (hj.trans h.lt)] at hnan ⊢
      rw [hi]
      exact h.first j hj hnan

/-! ### The host scan -/

/-- The state of the host scan after a part of the row. -/
inductive HostScan (row : List (Extended R)) : Extended R × ℕ → Prop
  | unseen (hall : ∀ v ∈ row, ¬ negInf < v) : HostScan row (negInf, 0)
  | seen {i : ℕ} (h : IsLowestMaximum row i) : HostScan row (entry row i, i)

omit [Field R] in
theorem HostScan.snoc {row : List (Extended R)} {best : Extended R × ℕ} (h : HostScan row best)
    (v : Extended R) :
    HostScan (row ++ [v]) (if best.1 < v then (v, row.length) else best) := by
  cases h with
  | unseen hall =>
    split
    · rename_i hlt
      have hne := ne_nan_of_lt_right hlt
      have hold : ∀ j < row.length, entry row j ≠ nan → entry row j = negInf := fun j hj hnan =>
        eq_negInf_of_not_lt (hall _ (entry_mem hj)) hnan
      have hone : IsLowestMaximum (row ++ [v]) row.length := by
        refine ⟨by simp, by rwa [entry_append_length], fun j hj hgt => ?_, fun j hj hnan => ?_⟩
        · rw [entry_append_length] at hgt
          have hnan := ne_nan_of_lt_right hgt
          rcases Nat.lt_or_ge j row.length with hj' | hj'
          · rw [entry_append_left hj'] at hgt hnan
            rw [hold j hj' hnan] at hgt
            exact not_lt_negInf hgt
          · obtain rfl : j = row.length := by
              rw [List.length_append, List.length_singleton] at hj
              omega
            rw [entry_append_length, lt_iff_place hne hne] at hgt
            exact lt_irrefl _ hgt
        · rw [entry_append_left hj] at hnan ⊢
          rw [entry_append_length, hold j hj hnan]
          exact hlt
      have hentry := HostScan.seen hone
      rwa [entry_append_length] at hentry
    · rename_i hnot
      refine .unseen fun u hu => ?_
      rcases List.mem_append.mp hu with hu | hu
      · exact hall u hu
      · rw [List.mem_singleton.mp hu]
        exact hnot
  | @seen i h =>
    have hsnoc := h.snoc v
    split
    · rename_i hlt
      rw [if_pos hlt] at hsnoc
      have hentry := HostScan.seen hsnoc
      rwa [entry_append_length] at hentry
    · rename_i hnot
      rw [if_neg hnot] at hsnoc
      have hentry := HostScan.seen hsnoc
      rwa [entry_append_left h.lt] at hentry

omit [Field R] in
theorem hostScan_foldl (rest : List (Extended R)) :
    ∀ (row : List (Extended R)) {best : Extended R × ℕ}, HostScan row best →
      HostScan (row ++ rest) ((rest.zipIdx row.length).foldl
        (fun best entry => if best.1 < entry.1 then entry else best) best) := by
  induction rest with
  | nil =>
    intro row best h
    rw [List.append_nil]
    exact h
  | cons v rest ih =>
    intro row best h
    rw [List.zipIdx_cons, List.foldl_cons, List.append_cons]
    have hnext := ih _ (h.snoc v)
    rwa [List.length_append, List.length_singleton] at hnext

omit [Field R] in
/-- **The host scan** finds the lowest maximum, if some entry is greater than `-∞`. -/
theorem isLowestMaximum_argmaxBuf {row : List (Extended R)} (h : ∃ v ∈ row, negInf < v) :
    IsLowestMaximum row (argmaxBuf row) := by
  have hscan := hostScan_foldl row [] (.unseen (by simp))
  rw [List.nil_append, List.length_nil] at hscan
  rw [argmaxBuf]
  obtain ⟨v, hv, hlt⟩ := h
  generalize row.zipIdx.foldl _ _ = best at hscan ⊢
  cases hscan with
  | unseen hall => exact absurd hlt (hall v hv)
  | seen h => exact h

/-! ### Comparisons on the device -/

section Flush

omit [LinearOrder R] in
theorem flushSubnormal_ne_nan [LinearOrder R] {v : Extended R} (hv : v ≠ nan) :
    flushSubnormal v ≠ nan := by
  cases v with
  | nan => exact absurd rfl hv
  | negInf | posInf => exact hv
  | finite x =>
    rw [flushSubnormal]
    split
    · exact fun h => by cases h
    · exact hv

variable [IsStrictOrderedRing R]

/-- Flushing keeps the order. -/
theorem place_flushSubnormal_mono {u v : Extended R} (hu : u ≠ nan) (hv : v ≠ nan)
    (h : u.place ≤ v.place) : (flushSubnormal u).place ≤ (flushSubnormal v).place := by
  cases u with
  | nan => exact absurd rfl hu
  | negInf => exact bot_le
  | posInf =>
    cases v with
    | nan => exact absurd rfl hv
    | negInf => exact absurd h (by simp [Extended.place])
    | finite y => exact absurd h (by simp [Extended.place])
    | posInf => exact le_refl _
  | finite x =>
    cases v with
    | nan => exact absurd rfl hv
    | negInf => exact absurd h (by simp [Extended.place])
    | posInf => exact le_top
    | finite y =>
      have hle : x ≤ y := by simpa [Extended.place] using h
      have hpos : (0 : R) < 1 / (2 ^ 126 : ℕ) := by positivity
      simp only [flushSubnormal]
      split
      · rename_i hx
        split
        · exact le_refl _
        · rename_i hy
          rw [zero_def]
          simp only [Extended.place, WithBot.coe_le_coe, WithTop.coe_le_coe]
          rw [abs_lt] at hx
          rw [abs_lt, not_and_or] at hy
          rcases hy with hy | hy <;> linarith
      · rename_i hx
        split
        · rename_i hy
          rw [zero_def]
          simp only [Extended.place, WithBot.coe_le_coe, WithTop.coe_le_coe]
          rw [abs_lt] at hy
          rw [abs_lt, not_and_or] at hx
          rcases hx with hx | hx <;> linarith
        · exact h

end Flush

/-! ### What the kernel finds -/

/-- What a comparison reads of an entry. -/
def key (row : List (Extended R)) (i : ℕ) : Extended R :=
  flushSubnormal (entry row i)

/-- The candidate stands for the tokens of a set: it is the sentinel if they are all NaN, and
otherwise the lowest of those with the greatest key. -/
inductive Best (row : List (Extended R)) (s : Set ℕ) : Candidate R → Prop
  | unseen (hall : ∀ i ∈ s, i < row.length → entry row i = nan) :
      Best row s ⟨negInf, UINT32_MAX⟩
  | seen {i : ℕ} (hmem : i ∈ s) (hlt : i < row.length) (hnan : entry row i ≠ nan)
      (hbest : ∀ j ∈ s, j < row.length → entry row j ≠ nan →
        (key row j).place < (key row i).place ∨
          (key row j).place = (key row i).place ∧ i ≤ j) : Best row s ⟨entry row i, i⟩

theorem betterCandidate_seen {row : List (Extended R)} {i j : ℕ} (hi : entry row i ≠ nan)
    (hj : entry row j ≠ nan) (hlt : j < UINT32_MAX) :
    betterCandidate ⟨entry row i, i⟩ ⟨entry row j, j⟩ = true ↔
      (key row j).place < (key row i).place ∨ (key row i).place = (key row j).place ∧ i < j := by
  have hki : key row i ≠ nan := flushSubnormal_ne_nan hi
  have hkj : key row j ≠ nan := flushSubnormal_ne_nan hj
  have hnan : (entry row i).isNan ≠ true := fun h => hi (isNan_eq_true.mp h)
  rw [betterCandidate, if_neg hnan]
  simp only [Bool.or_eq_true, Bool.and_eq_true, decide_eq_true_eq]
  rw [← key, ← key, lt_iff_place hkj hki, beq_iff_place hki hkj]
  constructor
  · rintro ((h | h) | h)
    · omega
    · exact .inl h
    · exact .inr h
  · rintro (h | h)
    · exact .inl (.inr h)
    · exact .inr h

theorem betterCandidate_sentinel {row : List (Extended R)} {j : ℕ} (hj : j < UINT32_MAX) :
    betterCandidate (⟨negInf, UINT32_MAX⟩ : Candidate R) ⟨entry row j, j⟩ = false := by
  have hflush : flushSubnormal (negInf : Extended R) = negInf := rfl
  rw [betterCandidate, if_neg (by simp [isNan])]
  simp only [hflush, Bool.or_eq_false_iff, Bool.and_eq_false_iff, decide_eq_false_iff_not]
  exact ⟨⟨by omega, not_lt_negInf⟩, .inr (by omega)⟩

theorem betterCandidate_of_sentinel {v : Extended R} {i : ℕ} (hv : v ≠ nan) :
    betterCandidate ⟨v, i⟩ (⟨negInf, UINT32_MAX⟩ : Candidate R) = true := by
  have hnan : v.isNan ≠ true := fun h => hv (isNan_eq_true.mp h)
  rw [betterCandidate, if_neg hnan]
  simp

/-- **Merging.** The better of two candidates stands for the tokens of both. -/
theorem merges_takeBetter {row : List (Extended R)} (hlength : row.length ≤ I32_MAX) :
    Merges takeBetter (Best row) := by
  have hmax : ∀ {i}, i < row.length → i < UINT32_MAX := fun hi => by
    simp only [I32_MAX, UINT32_MAX] at hlength ⊢
    omega
  intro s t a b ha hb
  rw [takeBetter]
  cases ha with
  | unseen hall =>
    cases hb with
    | unseen hall' =>
      rw [ite_id]
      exact .unseen fun i hi => hi.elim (hall i) (hall' i)
    | @seen j hmem hlt hnan hbest =>
      rw [betterCandidate_sentinel (hmax hlt), if_neg Bool.false_ne_true]
      refine .seen (.inr hmem) hlt hnan fun i hi hil hin => ?_
      exact hi.elim (fun hi => absurd (hall i hi hil) hin) fun hi => hbest i hi hil hin
  | @seen i hmem hlt hnan hbest =>
    cases hb with
    | unseen hall =>
      rw [betterCandidate_of_sentinel hnan, if_pos rfl]
      refine .seen (.inl hmem) hlt hnan fun j hj hjl hjn => ?_
      exact hj.elim (fun hj => hbest j hj hjl hjn) fun hj => absurd (hall j hj hjl) hjn
    | @seen j hmem' hlt' hnan' hbest' =>
      by_cases hbetter : betterCandidate ⟨entry row i, i⟩ ⟨entry row j, j⟩ = true
      · rw [if_pos hbetter]
        rw [betterCandidate_seen hnan hnan' (hmax hlt')] at hbetter
        refine .seen (.inl hmem) hlt hnan fun k hk hkl hkn => ?_
        rcases hk with hk | hk
        · exact hbest k hk hkl hkn
        · rcases hbest' k hk hkl hkn with hkj | ⟨hkj, hle⟩
          · rcases hbetter with hji | ⟨hij, -⟩
            · exact .inl (hkj.trans hji)
            · exact .inl (hkj.trans_eq hij.symm)
          · rcases hbetter with hji | ⟨hij, hltij⟩
            · exact .inl (hkj.trans_lt hji)
            · exact .inr ⟨hkj.trans hij.symm, hltij.le.trans hle⟩
      · rw [if_neg hbetter]
        rw [betterCandidate_seen hnan hnan' (hmax hlt'), not_or, not_and, not_lt] at hbetter
        obtain ⟨hle, htie⟩ := hbetter
        refine .seen (.inr hmem') hlt' hnan' fun k hk hkl hkn => ?_
        rcases hk with hk | hk
        · rcases hbest k hk hkl hkn with hki | ⟨hki, hik⟩
          · exact .inl (hki.trans_le hle)
          · rcases hle.lt_or_eq with hlt | heq
            · exact .inl (hki.trans_lt hlt)
            · exact .inr ⟨hki.trans heq, (not_lt.mp (htie heq)).trans hik⟩
        · exact hbest' k hk hkl hkn

/-- Only the entries of the row matter, and those that are not a NaN. -/
theorem Best.congr {row : List (Extended R)} {s t : Set ℕ} {c : Candidate R} (h : Best row s c)
    (heq : ∀ i < row.length, entry row i ≠ nan → (i ∈ s ↔ i ∈ t)) : Best row t c := by
  cases h with
  | unseen hall =>
    refine .unseen fun i hi hlt => ?_
    by_contra hnan
    exact hnan (hall i ((heq i hlt hnan).mpr hi) hlt)
  | seen hmem hlt hnan hbest =>
    exact .seen ((heq _ hlt hnan).mp hmem) hlt hnan fun j hj hjl hjn =>
      hbest j ((heq j hjl hjn).mpr hj) hjl hjn

/-- A thread takes in one token. -/
theorem Best.takeBetter {row : List (Extended R)} (hlength : row.length ≤ I32_MAX) {s : Set ℕ}
    {c : Candidate R} (h : Best row s c) {token : ℕ} (hlt : token < row.length) :
    Best row ({token} ∪ s) (takeBetter ⟨entry row token, token⟩ c) := by
  by_cases hnan : entry row token = nan
  · have hkeep : Sampler.takeBetter ⟨entry row token, token⟩ c = c := by
      rw [Sampler.takeBetter, betterCandidate, if_pos (isNan_eq_true.mpr hnan),
        if_neg Bool.false_ne_true]
    rw [hkeep]
    refine h.congr fun i _ hi => ⟨Or.inr, fun hmem => hmem.resolve_left ?_⟩
    rintro rfl
    exact hi hnan
  · refine merges_takeBetter hlength _ _ _ _ (.seen rfl hlt hnan ?_) h
    rintro j rfl _ _
    exact .inr ⟨rfl, le_refl _⟩

/-- The loop of a thread. `token` is the next token, and all tokens of the thread below it have been
taken in. -/
theorem best_greedyScan {row : List (Extended R)} (hlength : row.length ≤ I32_MAX)
    {threadIdx : ℕ} (rounds : ℕ) :
    ∀ {token : ℕ} {c : Candidate R}, token % kThreads = threadIdx →
      row.length ≤ token + kThreads * rounds →
      Best row (strideClass kThreads threadIdx ∩ Set.Iio token) c →
      Best row (strideClass kThreads threadIdx) (greedyScan row rounds token c) := by
  have hend : ∀ {token : ℕ} {c : Candidate R}, row.length ≤ token →
      Best row (strideClass kThreads threadIdx ∩ Set.Iio token) c →
      Best row (strideClass kThreads threadIdx) c := fun hle h =>
    h.congr fun i hi _ => ⟨fun hmem => hmem.1, fun hmem => ⟨hmem, hi.trans_le hle⟩⟩
  induction rounds with
  | zero =>
    intro token c _ hle h
    exact hend (by simpa using hle) h
  | succ rounds ih =>
    intro token c hclass hle h
    rw [greedyScan]
    split
    · rename_i hlt
      have hwrap : wrap32 (token + kThreads) = token + kThreads := by
        simp only [wrap32, kThreads, I32_MAX] at hlength ⊢
        omega
      rw [hwrap]
      refine ih (by rw [Nat.add_mod_right, hclass]) (by
        simp only [kThreads] at hle ⊢
        omega) ?_
      refine (h.takeBetter hlength hlt).congr fun i _ _ => ?_
      simp only [Set.mem_union, Set.mem_singleton_iff, Set.mem_inter_iff, strideClass,
        Set.mem_ofPred_eq, Set.mem_Iio, kThreads] at hclass ⊢
      omega
    · rename_i hge
      exact hend (Nat.le_of_not_lt hge) h

omit [LinearOrder R] in
theorem entry_map_flushSubnormal [LinearOrder R] {row : List (Extended R)} {i : ℕ}
    (hi : i < row.length) : entry (row.map flushSubnormal) i = key row i := by
  simp [entry, key, List.getD_eq_getElem?_getD, hi]

theorem ne_nan_of_key {row : List (Extended R)} {i : ℕ} (h : key row i ≠ nan) :
    entry row i ≠ nan := by
  intro hnan
  exact h (by rw [key, hnan]; rfl)

/-- **The kernel** finds the lowest maximum of the row as its comparisons read it. -/
theorem isLowestMaximum_greedyArgmaxKernel {row : List (Extended R)}
    (hlength : row.length ≤ I32_MAX) (h : ∃ v ∈ row, negInf < v) :
    IsLowestMaximum (row.map flushSubnormal) (greedyArgmaxKernel row) := by
  have hcells : ∀ i < 2 ^ 8, Best row (strideClass (2 ^ 8) i)
      (greedyScan row row.length i ⟨negInf, UINT32_MAX⟩) := by
    intro i hi
    have hclass : i % kThreads = i := Nat.mod_eq_of_lt hi
    refine best_greedyScan hlength row.length hclass (by simp only [kThreads]; omega) ?_
    -- no token of the thread lies below its own number
    refine .unseen fun j hj _ => ?_
    have hmod : j % kThreads = i := hj.1
    have hlt : j < i := hj.2
    have hself : j % kThreads = j := Nat.mod_eq_of_lt (hlt.trans hi)
    omega
  have hbest := halvingTree_summarises (merges_takeBetter hlength) 8 hcells
  obtain ⟨v, hv, hgt⟩ := h
  obtain ⟨i, hi, rfl⟩ := exists_entry_of_mem hv
  have hnan := ne_nan_of_lt_right hgt
  rw [greedyArgmaxKernel]
  change Best row Set.univ (halvingTree takeBetter (kThreads / 2) (fun threadIdx =>
    greedyScan row row.length threadIdx ⟨negInf, UINT32_MAX⟩) 0) at hbest
  generalize halvingTree takeBetter (kThreads / 2) (fun threadIdx =>
    greedyScan row row.length threadIdx ⟨negInf, UINT32_MAX⟩) 0 = best at hbest
  cases hbest with
  | unseen hall => exact absurd (hall i trivial hi) hnan
  | @seen m _ hlt hm hbest =>
    have htoken : m ≠ UINT32_MAX := by
      simp only [I32_MAX, UINT32_MAX] at hlength ⊢
      omega
    have hkm : key row m ≠ nan := flushSubnormal_ne_nan hm
    dsimp only
    rw [if_neg htoken]
    refine ⟨by rwa [List.length_map], by rwa [entry_map_flushSubnormal hlt], fun j hj => ?_,
      fun j hj hjn => ?_⟩
    · rw [List.length_map] at hj
      rw [entry_map_flushSubnormal hlt, entry_map_flushSubnormal hj]
      intro hgt
      have hkj := ne_nan_of_lt_right hgt
      rw [lt_iff_place hkm hkj] at hgt
      rcases hbest j trivial hj (ne_nan_of_key hkj) with hless | ⟨heq, -⟩
      · exact lt_asymm hgt hless
      · exact hgt.ne heq.symm
    · have hjl := hj.trans hlt
      rw [entry_map_flushSubnormal hjl] at hjn ⊢
      rw [entry_map_flushSubnormal hlt, lt_iff_place hjn hkm]
      rcases hbest j trivial hjl (ne_nan_of_key hjn) with hless | ⟨-, hle⟩
      · exact hless
      · exact absurd hj (not_lt.mpr hle)

/-! ### The two scans agree -/

section Agreement

variable [IsStrictOrderedRing R]

/-- No entry in front of the lowest maximum is read as equal to it: if the lowest maximum is zero or
subnormal, no zero and no subnormal entry stands before it. -/
def MaximumStandsOut (row : List (Extended R)) : Prop :=
  ∀ i, IsLowestMaximum row i → ∀ j < i, key row j ≠ key row i

/-- **Greedy argmax.** The kernel returns the token of the host scan, the lowest index among the
maxima of the entries that are not a NaN, exactly if no entry in front of it is read as equal to
it. -/
theorem greedyArgmaxKernel_eq_iff {row : List (Extended R)} (hlength : row.length ≤ I32_MAX)
    (h : ∃ v ∈ row, negInf < v) :
    (greedyArgmaxKernel row = argmaxBuf row ∧ IsLowestMaximum row (greedyArgmaxKernel row)) ↔
      MaximumStandsOut row := by
  have hhost := isLowestMaximum_argmaxBuf h
  have hdevice := isLowestMaximum_greedyArgmaxKernel hlength h
  generalize argmaxBuf row = i at hhost ⊢
  generalize greedyArgmaxKernel row = m at hdevice ⊢
  have hm : m < row.length := by simpa using hdevice.lt
  have hki : key row i ≠ nan := flushSubnormal_ne_nan hhost.ne_nan
  have hkm : key row m ≠ nan := by
    rw [← entry_map_flushSubnormal hm]
    exact hdevice.ne_nan
  constructor
  · rintro ⟨rfl, -⟩ i' hi' j hj heq
    obtain rfl := hi'.eq hhost
    have hless := hdevice.first j hj
    rw [entry_map_flushSubnormal hm, entry_map_flushSubnormal (hj.trans hm), heq,
      lt_iff_place hki hki] at hless
    exact lt_irrefl _ (hless hki)
  · intro hstands
    -- the keys of both tokens are maximal, so they have the same place
    have hle : (key row m).place ≤ (key row i).place := by
      refine place_flushSubnormal_mono (ne_nan_of_key hkm) hhost.ne_nan (not_lt.mp ?_)
      rw [← lt_iff_place hhost.ne_nan (ne_nan_of_key hkm)]
      exact hhost.greatest m hm
    have hge : (key row i).place ≤ (key row m).place := by
      have hgreatest := hdevice.greatest i (by simpa using hhost.lt)
      rw [entry_map_flushSubnormal hm, entry_map_flushSubnormal hhost.lt,
        lt_iff_place hkm hki] at hgreatest
      exact not_lt.mp hgreatest
    have heq : m = i := by
      rcases lt_trichotomy m i with hlt | heq | hlt
      · exact absurd (eq_of_place_eq hkm hki (le_antisymm hle hge)) (hstands i hhost m hlt)
      · exact heq
      · have hless := hdevice.first i hlt
        rw [entry_map_flushSubnormal hm, entry_map_flushSubnormal hhost.lt,
          lt_iff_place hki hkm] at hless
        exact absurd (hless hki) (not_lt.mpr hle)
    exact ⟨heq, heq ▸ hhost⟩

omit [IsStrictOrderedRing R] in
/-- In a row without subnormal entries the kernel finds the token of the host scan. -/
theorem greedyArgmaxKernel_eq_of_normal {row : List (Extended R)}
    (hlength : row.length ≤ I32_MAX) (h : ∃ v ∈ row, negInf < v)
    (hnormal : ∀ v ∈ row, flushSubnormal v = v) : greedyArgmaxKernel row = argmaxBuf row := by
  have hdevice := isLowestMaximum_greedyArgmaxKernel hlength h
  rw [List.map_congr_left hnormal, List.map_id'] at hdevice
  exact hdevice.eq (isLowestMaximum_argmaxBuf h)

end Agreement

/-- A NaN, a smaller entry and two equal maxima. -/
theorem greedyArgmaxKernel_eq_iff_example :
    greedyArgmaxKernel [nan, finite 1, finite 2, finite (2 : ℚ)] = 2 := by
  have hgreater : ∃ v ∈ [nan, finite 1, finite 2, finite (2 : ℚ)], negInf < v :=
    ⟨finite 1, by simp, trivial⟩
  have hhost : argmaxBuf [nan, finite 1, finite 2, finite (2 : ℚ)] = 2 := by decide +kernel
  have hstands : MaximumStandsOut [nan, finite 1, finite 2, finite (2 : ℚ)] := by
    intro i hi j hj
    obtain rfl : i = 2 := hhost ▸ hi.eq (isLowestMaximum_argmaxBuf hgreater)
    rcases (by omega : j = 0 ∨ j = 1) with rfl | rfl
    · simp only [key, entry, List.getD_cons_zero, List.getD_cons_succ, flushSubnormal]
      norm_num
      exact fun hnan => by cases hnan
    · simp only [key, entry, List.getD_cons_zero, List.getD_cons_succ, flushSubnormal]
      norm_num
  have hagree := (greedyArgmaxKernel_eq_iff (by simp [I32_MAX]) hgreater).mpr hstands
  exact hagree.1.trans hhost

/-- The smallest positive value of binary32 after a zero: the comparisons on the device do not tell
them apart. -/
theorem greedyArgmaxKernel_ne_subnormal :
    greedyArgmaxKernel [0, finite ((1 / 2 : ℚ) ^ 149)] = 0 ∧
      argmaxBuf [0, finite ((1 / 2 : ℚ) ^ 149)] = 1 := by
  have hgreater : ∃ v ∈ [0, finite ((1 / 2 : ℚ) ^ 149)], negInf < v := ⟨0, by simp, trivial⟩
  have hdevice := isLowestMaximum_greedyArgmaxKernel (by simp [I32_MAX]) hgreater
  have hflushed : ∃ v ∈ [0, finite ((1 / 2 : ℚ) ^ 149)].map flushSubnormal, negInf < v := by
    refine ⟨0, List.mem_map.mpr ⟨0, by simp, ?_⟩, trivial⟩
    simp [zero_def, flushSubnormal]
  have hscan : argmaxBuf ([0, finite ((1 / 2 : ℚ) ^ 149)].map flushSubnormal) = 0 := by
    decide +kernel
  exact ⟨(hdevice.eq (isLowestMaximum_argmaxBuf hflushed)).trans hscan, by decide +kernel⟩

end VllmOxide.Sampler
