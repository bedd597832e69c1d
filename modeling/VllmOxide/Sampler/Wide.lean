import VllmOxide.Sampler.HistoryCounts
import VllmOxide.Sampler.Shift
import Mathlib.Tactic.Ring

/-!
# The wide fallback draws the same token

The wide fallback keeps the count of a token apart from its base score and compares two tokens through
`WideScore::difference`, which combines the gap of their bases with the gap of their penalties. In
exact arithmetic that is the difference of the penalised logits. The pairwise search therefore ends at
the argmax of the penalised row, the normalised row is the scaled row shifted by a constant, and a
shift changes neither mask nor the Gumbel maximum.

## Main definitions

* `Cell`: the base and the count of a token, with its wide score and its penalised logit.
* `cells`: the cells of a row.

## Main results

* `Cell.difference_eq`: the difference of two wide scores is that of the penalised logits.
* `sampleRowWide_refines`: the wide fallback refines the ordinary pipeline.
* `sampleRowHost_eq`: which of the two is used makes no difference.
-/

namespace VllmOxide.Sampler

open Extended

variable {R : Type*} [Field R] [LinearOrder R]

/-- The three penalties are finite numbers. -/
structure SamplingParams.FinitePenalties (params : SamplingParams R) : Prop where
  presence : params.presencePenalty.isFinite = true
  frequency : params.frequencyPenalty.isFinite = true
  repetition : params.repetitionPenalty.isFinite = true

/-- The three penalties have these values. -/
structure SamplingParams.Penalties (params : SamplingParams R) (presence frequency repetition : R) :
    Prop where
  presence : params.presencePenalty = finite presence
  frequency : params.frequencyPenalty = finite frequency
  repetition : params.repetitionPenalty = finite repetition

omit [Field R] [LinearOrder R] in
theorem exists_of_isFinite {x : Extended R} (h : x.isFinite = true) : ∃ r, x = finite r := by
  cases x with
  | finite r => exact ⟨r, rfl⟩
  | nan | negInf | posInf => cases h

omit [Field R] [LinearOrder R] in
theorem SamplingParams.FinitePenalties.exists {params : SamplingParams R}
    (h : params.FinitePenalties) : ∃ presence frequency repetition,
      params.Penalties presence frequency repetition := by
  obtain ⟨a, ha⟩ := exists_of_isFinite h.presence
  obtain ⟨f, hf⟩ := exists_of_isFinite h.frequency
  obtain ⟨r, hr⟩ := exists_of_isFinite h.repetition
  exact ⟨a, f, r, ha, hf, hr⟩

/-! ### Cells -/

/-- The base and the count of a token. -/
structure Cell (R : Type*) where
  base : R
  count : ℕ

/-- The wide score of a cell. -/
def Cell.wide (cell : Cell R) : WideScore R :=
  ⟨finite cell.base, cell.count⟩

/-- The penalised logit of a cell. -/
def Cell.logit (presence frequency : R) (cell : Cell R) : R :=
  cell.base - (if 0 < cell.count then presence else 0) - frequency * cell.count

/-- A logit after the repetition penalty, which zero turns off. -/
def divided (repetition x : R) : R :=
  if repetition = 0 then x else x / repetition

/-- The cells of a row. -/
def cells (repetition : R) (history : List ℕ) (logits : List R) : List (Cell R) :=
  logits.mapIdx fun i x =>
    if i ∈ history then ⟨divided repetition x, history.count i⟩ else ⟨x, 0⟩

/-- The history that the penalties look at. -/
def penalizedHistory (params : SamplingParams R) (history : List ℕ) : List ℕ :=
  if params.hasPenalties ∧ history ≠ [] then history else []

section Cells

variable [IsStrictOrderedRing R] {params : SamplingParams R} {presence frequency repetition : R}

omit [IsStrictOrderedRing R] in
theorem finite_bne_zero {x : R} : ((finite x : Extended R) != 0) = decide (x ≠ 0) := by
  rw [zero_def, bne, Bool.eq_iff_iff, Bool.not_eq_true', decide_eq_true_eq, ← Bool.not_eq_true,
    finite_beq_finite]

omit [IsStrictOrderedRing R] in
theorem divide_finite (r x : R) :
    (if (finite r : Extended R) != 0 then finite x / finite r else finite x) =
      finite (divided r x) := by
  rw [finite_bne_zero, divided]
  by_cases hr : r = 0
  · simp [hr]
  · simp [hr, finite_div_finite hr]

omit [IsStrictOrderedRing R] in
/-- Recording the count of a token. -/
theorem record_eq (h : params.Penalties presence frequency repetition) (n : ℕ) (x : R) :
    WideScore.record params n ⟨finite x, 0⟩ = (⟨divided repetition x, n⟩ : Cell R).wide := by
  rw [WideScore.record, h.repetition, divide_finite, Cell.wide]

omit [IsStrictOrderedRing R] in
/-- The penalties on the logit of a token that occurs. -/
theorem penalize_eq (h : params.Penalties presence frequency repetition) {n : ℕ} (hn : 0 < n) (x : R) :
    penalize params n (finite x) =
      finite ((⟨divided repetition x, n⟩ : Cell R).logit presence frequency) := by
  rw [penalize, h.repetition, h.presence, h.frequency, divide_finite, finite_bne_zero]
  by_cases hf : frequency = 0
  · simp [Cell.logit, hf, hn]
  · simp [Cell.logit, hf, hn, ofNat]

omit [IsStrictOrderedRing R] in
/-- The wide scores, token by token. -/
theorem wideSamplingScores_mapIdx (hash : HashOrder) (buf : List (Extended R)) (history : List ℕ) :
    wideSamplingScores hash buf params history = buf.mapIdx fun i x =>
      if i ∈ penalizedHistory params history then
        WideScore.record params ((penalizedHistory params history).count i) ⟨x, 0⟩
      else ⟨x, 0⟩ := by
  unfold wideSamplingScores penalizedHistory
  split_ifs with hpenalties
  · rw [foldl_modify_historyCounts]
    refine List.ext_getElem? fun i => ?_
    simp only [List.getElem?_mapIdx, List.getElem?_map, Option.map_map]
    rfl
  · refine List.ext_getElem? fun i => ?_
    simp only [List.getElem?_mapIdx, List.getElem?_map, List.not_mem_nil, if_false]

omit [IsStrictOrderedRing R] in
/-- The wide scores of a finite row are those of its cells. -/
theorem wideSamplingScores_eq (hash : HashOrder) (h : params.Penalties presence frequency repetition)
    (history : List ℕ) (logits : List R) :
    wideSamplingScores hash (logits.map finite) params history =
      (cells repetition (penalizedHistory params history) logits).map Cell.wide := by
  rw [wideSamplingScores_mapIdx, cells]
  refine List.ext_getElem? fun i => ?_
  simp only [List.getElem?_mapIdx, List.getElem?_map]
  cases logits[i]? with
  | none => rfl
  | some x =>
    simp only [Option.map_some, record_eq h]
    split_ifs <;> rfl

omit [IsStrictOrderedRing R] in
/-- The penalised row of a finite row holds the logits of its cells. -/
theorem penalizeRow_eq (hash : HashOrder) (h : params.Penalties presence frequency repetition)
    (history : List ℕ) (logits : List R) :
    penalizeRow hash params history (logits.map finite) =
      (cells repetition (penalizedHistory params history) logits).map
        fun cell => finite (cell.logit presence frequency) := by
  unfold penalizeRow penalizedHistory
  split_ifs with hpenalties
  · rw [applyPenalties, foldl_modify_historyCounts, cells]
    refine List.ext_getElem? fun i => ?_
    simp only [List.getElem?_mapIdx, List.getElem?_map]
    cases logits[i]? with
    | none => rfl
    | some x =>
      simp only [Option.map_some]
      split_ifs with hmem
      · rw [penalize_eq h (List.count_pos_iff.mpr hmem)]
      · simp [Cell.logit]
  · refine List.ext_getElem? fun i => ?_
    simp only [cells, List.getElem?_mapIdx, List.getElem?_map, List.not_mem_nil, if_false]
    cases logits[i]? with
    | none => rfl
    | some x => simp [Cell.logit]

/-! ### The difference of two wide scores -/

omit [LinearOrder R] [IsStrictOrderedRing R] in
theorem twoSum_finite (x y : R) : twoSum (finite x) (finite y) = (finite (x + y), finite 0) := by
  simp [twoSum]

omit [LinearOrder R] [IsStrictOrderedRing R] in
theorem countDifference_eq (n m : ℕ) :
    (countDifference n m : Extended R) = finite ((n : R) - m) := by
  rw [countDifference]
  split_ifs with hle
  · rw [ofNat, Nat.cast_sub hle]
  · rw [ofNat, neg_finite, Nat.cast_sub (not_le.mp hle).le, neg_sub]

omit [LinearOrder R] [IsStrictOrderedRing R] in
theorem presenceGap_eq (h : params.presencePenalty = finite presence) (n m : ℕ) :
    presenceGap params n m =
      finite ((if 0 < m then presence else 0) - if 0 < n then presence else 0) := by
  rw [presenceGap, h]
  by_cases hn : 0 < n <;> by_cases hm : 0 < m <;> simp [hn, hm, zero_def]

omit [IsStrictOrderedRing R] in
/-- The difference of two wide scores is the difference of the penalised logits. -/
theorem Cell.difference_eq (h : params.Penalties presence frequency repetition) (s t : Cell R) :
    s.wide.difference t.wide params =
      finite (s.logit presence frequency - t.logit presence frequency) := by
  simp only [WideScore.difference, Cell.wide, h.frequency, finite_sub_finite, Extended.isFinite,
    Bool.not_true, Bool.false_eq_true, if_false, countDifference_eq, presenceGap_eq h.presence,
    neg_finite, finite_mul_finite, twoSum_finite, finite_add_finite, Cell.logit]
  congr 1
  ring

omit [IsStrictOrderedRing R] in
theorem Cell.difference_sentinel (s : Cell R) :
    s.wide.difference ⟨negInf, 0⟩ params = posInf := rfl

/-! ### The pairwise search -/

theorem foldl_wideBest (h : params.Penalties presence frequency repetition)
    (entries : List (Cell R × ℕ)) (cell : Cell R) (i : ℕ) : ∃ (best : Cell R) (j : ℕ),
    (entries.map fun entry => (entry.1.wide, entry.2)).foldl
        (fun best entry => if 0 < entry.1.difference best.1 params then entry else best)
        (cell.wide, i) = (best.wide, j) ∧
      (entries.map fun entry =>
          ((finite (entry.1.logit presence frequency) : Extended R), entry.2)).foldl
        (fun best entry => if best.1 < entry.1 then entry else best)
        (finite (cell.logit presence frequency), i) =
        (finite (best.logit presence frequency), j) := by
  induction entries generalizing cell i with
  | nil => exact ⟨cell, i, rfl, rfl⟩
  | cons entry entries ih =>
    simp only [List.map_cons, List.foldl_cons, Cell.difference_eq h, zero_def, finite_lt_finite,
      sub_pos]
    split_ifs
    · exact ih entry.1 entry.2
    · exact ih cell i

/-- The pairwise search ends at the argmax of the penalised row. -/
theorem wideBest_eq (h : params.Penalties presence frequency repetition) (row : List (Cell R)) :
    (wideBest params (row.map Cell.wide)).2 =
        argmaxBuf (row.map fun cell => finite (cell.logit presence frequency)) ∧
      (row ≠ [] → ∃ cell, (wideBest params (row.map Cell.wide)).1 = Cell.wide cell) := by
  cases row with
  | nil => exact ⟨rfl, fun hne => absurd rfl hne⟩
  | cons cell row =>
    obtain ⟨best, j, hwide, hrow⟩ := foldl_wideBest h (row.zipIdx 1) cell 0
    have hstart : (0 : Extended R) < cell.wide.difference ⟨negInf, 0⟩ params := by
      rw [Cell.difference_sentinel, zero_def]
      exact finite_lt_posInf
    have hsearch : wideBest params ((cell :: row).map Cell.wide) = (best.wide, j) := by
      rw [wideBest, List.zipIdx_map, List.zipIdx_cons, List.map_cons, List.foldl_cons]
      simp only [Prod.map, id, hstart, if_true]
      exact hwide
    have hargmax : argmaxBuf ((cell :: row).map fun cell =>
        (finite (cell.logit presence frequency) : Extended R)) = j := by
      rw [argmaxBuf, List.zipIdx_map, List.zipIdx_cons, List.map_cons, List.foldl_cons]
      simp only [Prod.map, id, negInf_lt_finite, if_true]
      exact congrArg Prod.snd hrow
    rw [hsearch, hargmax]
    exact ⟨rfl, fun _ => ⟨best, rfl⟩⟩

/-! ### The normalised row -/

/-- The scaled row of the ordinary pipeline and the normalised row of the wide fallback differ by a
constant. -/
theorem normalized_eq (h : params.Penalties presence frequency repetition)
    (htemperature : 0 < params.temperature) (row : List (Cell R)) (best : Cell R) : ∃ c,
    (row.map Cell.wide).map (fun value =>
        if params.temperature.isInfinite then 0
        else value.difference best.wide params / params.temperature) =
      shift c ((row.map fun cell => finite (cell.logit presence frequency)).map
        (· * (1 / params.temperature))) := by
  cases htemp : params.temperature with
  | nan | negInf => rw [htemp] at htemperature; cases htemperature
  | finite t =>
    have ht : t ≠ 0 := by
      rw [htemp, zero_def, finite_lt_finite] at htemperature
      exact htemperature.ne'
    refine ⟨best.logit presence frequency / t, ?_⟩
    simp only [shift, List.map_map]
    refine List.map_congr_left fun cell _ => ?_
    simp only [Function.comp_apply, Extended.isInfinite, Bool.false_eq_true, if_false,
      Cell.difference_eq h, one_def, finite_div_finite ht, finite_mul_finite, finite_sub_finite]
    congr 1
    ring
  | posInf =>
    have hinv : (1 : Extended R) / posInf = finite 0 := rfl
    refine ⟨0, ?_⟩
    simp only [shift, List.map_map, hinv]
    refine List.map_congr_left fun cell _ => ?_
    simp only [Function.comp_apply, Extended.isInfinite, if_true, finite_mul_finite, mul_zero,
      finite_sub_finite, sub_zero, zero_def]

/-- The wide fallback draws the token of the ordinary pipeline. -/
theorem sampleRowWide_eq (hash hash' : HashOrder) (env : Platform R)
    (h : params.Penalties presence frequency repetition)
    (htemperature : 0 < params.temperature ∨ params.isGreedy) (history : List ℕ) (logits : List R) :
    sampleRowWide hash env (logits.map finite) params history =
      sampleRowOrdinary hash' env params history (logits.map finite) := by
  have hwide := wideSamplingScores_eq hash h history logits
  have hrow := penalizeRow_eq hash' h history logits
  obtain ⟨hargmax, hbest⟩ :=
    wideBest_eq h (cells repetition (penalizedHistory params history) logits)
  unfold sampleRowWide sampleRowOrdinary
  rw [hwide, hrow]
  generalize cells repetition (penalizedHistory params history) logits = row at *
  by_cases hgreedy : params.isGreedy
  · simp only [hgreedy, if_true]
    exact hargmax
  · simp only [hgreedy, Bool.false_eq_true, if_false]
    rcases List.eq_nil_or_concat row with rfl | ⟨init, last, rfl⟩
    · rfl
    · obtain ⟨best, hbest⟩ := hbest (by simp)
      obtain ⟨c, hc⟩ := normalized_eq h (htemperature.resolve_right hgreedy) _ best
      rw [hbest, hc, maskRow_shift, gumbelArgmaxBuf_shift]

/-- The wide fallback refines the ordinary pipeline: its differences are those of the penalised
logits, and it draws the same token, whatever the order in which the two hash maps are visited. -/
theorem sampleRowWide_refines (hash hash' : HashOrder) (env : Platform R)
    (hpenalties : params.FinitePenalties) (history : List ℕ) (logits : List R) :
    (∀ i j, i < logits.length → j < logits.length →
      ((wideSamplingScores hash (logits.map finite) params history).getD i default).difference
          ((wideSamplingScores hash (logits.map finite) params history).getD j default) params =
        entry (penalizeRow hash' params history (logits.map finite)) i -
          entry (penalizeRow hash' params history (logits.map finite)) j) ∧
    (0 < params.temperature ∨ params.isGreedy →
      sampleRowWide hash env (logits.map finite) params history =
        sampleRowOrdinary hash' env params history (logits.map finite)) := by
  obtain ⟨presence, frequency, repetition, h⟩ := hpenalties.exists
  refine ⟨fun i j hi hj => ?_, fun htemperature =>
    sampleRowWide_eq hash hash' env h htemperature history logits⟩
  have hlength : (cells repetition (penalizedHistory params history) logits).length =
      logits.length := by simp [cells]
  rw [wideSamplingScores_eq hash h, penalizeRow_eq hash' h]
  simp [entry, List.getD_eq_getElem?_getD, hlength, hi, hj, Cell.difference_eq h]

omit [IsStrictOrderedRing R] in
/-- A row that takes the wide fallback is finite. -/
theorem exists_of_requiresWideSampling {history : List ℕ} {buf : List (Extended R)}
    (h : requiresWideSampling buf params history = true) : ∃ logits : List R, buf = logits.map finite := by
  have hfinite : ∀ v ∈ buf, v.isFinite = true := by
    by_contra! hv
    obtain ⟨v, hv, hinfinite⟩ := hv
    have hany : (buf.any fun value => !value.isFinite) = true :=
      List.any_eq_true.mpr ⟨v, hv, by simpa using hinfinite⟩
    simp [requiresWideSampling, hany] at h
  clear h
  induction buf with
  | nil => exact ⟨[], rfl⟩
  | cons v buf ih =>
    obtain ⟨hv, hrest⟩ := List.forall_mem_cons.mp hfinite
    obtain ⟨x, rfl⟩ := exists_of_isFinite hv
    obtain ⟨logits, rfl⟩ := ih hrest
    exact ⟨x :: logits, rfl⟩

omit [IsStrictOrderedRing R] in
/-- The order in which the entries are visited does not change the penalised row. -/
theorem penalizeRow_hash (hash hash' : HashOrder) (history : List ℕ) (buf : List (Extended R)) :
    penalizeRow hash params history buf = penalizeRow hash' params history buf := by
  simp only [penalizeRow, applyPenalties, foldl_modify_historyCounts]

/-- A token outside the vocabulary and a token that occurs twice, under all three penalties. -/
theorem sampleRowWide_refines_example :
    let params : SamplingParams ℚ := ⟨finite (1 / 2), some 3, some (finite (4 / 5)), 16,
      finite 1, finite (1 / 2), finite 2⟩
    sampleRowWide .insertion .rational ([4, 3, 2, 3].map finite) params [0, 9, 0, 3] =
      sampleRowOrdinary .insertion .rational params [0, 9, 0, 3] ([4, 3, 2, 3].map finite) :=
  (sampleRowWide_refines .insertion .insertion .rational ⟨rfl, rfl, rfl⟩ [0, 9, 0, 3]
    [4, 3, 2, 3]).2 (.inl (by simp [zero_def]))

/-- Whichever of the two is used, the host draws the token of the ordinary pipeline. -/
theorem sampleRowHost_eq (hash hash' : HashOrder) (env : Platform R)
    (hpenalties : params.FinitePenalties) (htemperature : 0 < params.temperature ∨ params.isGreedy)
    (history : List ℕ) (buf : List (Extended R)) :
    sampleRowHost hash env params history buf = sampleRowOrdinary hash' env params history buf := by
  unfold sampleRowHost
  split_ifs with hwide
  · obtain ⟨logits, rfl⟩ := exists_of_requiresWideSampling hwide
    obtain ⟨presence, frequency, repetition, h⟩ := hpenalties.exists
    exact sampleRowWide_eq hash hash' env h htemperature history logits
  · simp only [sampleRowOrdinary, penalizeRow_hash hash hash']

end Cells

end VllmOxide.Sampler
