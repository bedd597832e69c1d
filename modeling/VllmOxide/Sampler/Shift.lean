import VllmOxide.Sampler.Host

/-!
# Rows that differ by a constant

The masks compare the entries of a row with one another and look at differences from the greatest
entry, and the Gumbel maximum compares sums with a noise that does not depend on the row. Subtracting
one finite value from every entry therefore changes neither the masked places nor the drawn token.

## Main results

* `maskRow_shift`: the masks commute with subtracting a finite value.
* `gumbelArgmaxBuf_shift`: the drawn token does not depend on it.
-/

namespace VllmOxide.Sampler

open Extended

variable {R : Type*} [Field R] [LinearOrder R] [IsStrictOrderedRing R] {c : R}
  {buf : List (Extended R)}

/-- The row with one finite value subtracted from every entry. -/
def shift (c : R) (buf : List (Extended R)) : List (Extended R) :=
  buf.map (· - finite c)

omit [LinearOrder R] [IsStrictOrderedRing R] in
@[simp] theorem length_shift : (shift c buf).length = buf.length := by
  simp [shift]

omit [LinearOrder R] [IsStrictOrderedRing R] in
theorem negInf_shift : (negInf : Extended R) - finite c = negInf := rfl

omit [LinearOrder R] [IsStrictOrderedRing R] in
theorem entry_shift (i : ℕ) : entry (shift c buf) i = entry buf i - finite c := by
  simp only [entry, shift, List.getD_eq_getElem?_getD, List.getElem?_map]
  cases buf[i]? <;> rfl

theorem byEntry_shift : byEntry (shift c buf) = byEntry buf := by
  funext a b
  simp only [byEntry, entry_shift, shift_lt_shift]

omit [LinearOrder R] [IsStrictOrderedRing R] in
/-- Replacing entries by `-∞` commutes with the shift. -/
theorem ite_shift (p : Prop) [Decidable p] (v : Extended R) :
    (if p then negInf else v) - finite c = if p then negInf else v - finite c := by
  split_ifs <;> rfl

/-! ### The masks -/

theorem maskTopK_shift (nth : NthSelection ℕ) (k : ℕ) :
    maskTopK nth k (shift c buf) = shift c (maskTopK nth k buf) := by
  simp only [maskTopK, byEntry_shift, length_shift, entry_shift]
  simp only [shift, List.map_map]
  refine List.map_congr_left fun v _ => ?_
  simp only [Function.comp_apply, shift_lt_shift, ite_shift]

theorem maskTopP_shift (sort : StableSort ℕ) (e : Exponential R) (p : Extended R) :
    maskTopP sort e p (shift c buf) = shift c (maskTopP sort e p buf) := by
  have hweights (max : Extended R) :
      (shift c buf).map (fun v => e.exp (v - (max - finite c))) =
        buf.map fun v => e.exp (v - max) := by
    simp only [shift, List.map_map]
    exact List.map_congr_left fun v _ => by simp only [Function.comp_apply, shift_sub_shift]
  simp only [maskTopP, byEntry_shift, length_shift, entry_shift, shift_sub_shift, hweights]
  refine List.ext_getElem? fun i => ?_
  simp only [shift, List.getElem?_mapIdx, List.getElem?_map, Option.map_map]
  cases buf[i]? with
  | none => rfl
  | some v => simp only [Option.map_some, Function.comp_apply, ite_shift]

theorem topKStep_shift (env : Platform R) (params : SamplingParams R) :
    topKStep env params (shift c buf) = shift c (topKStep env params buf) := by
  unfold topKStep
  cases params.topK with
  | none => rfl
  | some k =>
    simp only [length_shift, maskTopK_shift]
    split_ifs <;> rfl

theorem topPStep_shift (env : Platform R) (params : SamplingParams R) :
    topPStep env params (shift c buf) = shift c (topPStep env params buf) := by
  unfold topPStep
  cases params.topP with
  | none => rfl
  | some p =>
    simp only [maskTopP_shift]
    split_ifs <;> rfl

/-- The masks commute with the shift. -/
theorem maskRow_shift (env : Platform R) (params : SamplingParams R) :
    maskRow env params (shift c buf) = shift c (maskRow env params buf) := by
  rw [maskRow, topKStep_shift, topPStep_shift, maskRow]

/-! ### The Gumbel maximum -/

omit [Field R] [IsStrictOrderedRing R] in
theorem foldl_best_map {f : Extended R → Extended R}
    (hlt : ∀ a b, f a < f b ↔ a < b) (entries : List (Extended R × ℕ)) (best : Extended R × ℕ) :
    (entries.map fun entry => (f entry.1, entry.2)).foldl
        (fun best entry => if best.1 < entry.1 then entry else best) (f best.1, best.2) =
      (fun best => (f best.1, best.2)) (entries.foldl
        (fun best entry => if best.1 < entry.1 then entry else best) best) := by
  induction entries generalizing best with
  | nil => rfl
  | cons entry entries ih =>
    simp only [List.map_cons, List.foldl_cons, hlt]
    split_ifs
    · exact ih entry
    · exact ih best

/-- The maximum of a row is at the same place after the shift. -/
theorem argmaxBuf_shift : argmaxBuf (shift c buf) = argmaxBuf buf := by
  have hzip : (shift c buf).zipIdx = buf.zipIdx.map fun entry => (entry.1 - finite c, entry.2) := by
    rw [shift, List.zipIdx_map]
    rfl
  have h := foldl_best_map (f := fun a : Extended R => a - finite c) (fun a b => shift_lt_shift)
    buf.zipIdx (negInf, 0)
  rw [negInf_shift] at h
  rw [argmaxBuf, hzip, h, argmaxBuf]

/-- The drawn token is the same after the shift. -/
theorem gumbelArgmaxBuf_shift (noise : ℕ → Extended R) :
    gumbelArgmaxBuf noise (shift c buf) = gumbelArgmaxBuf noise buf := by
  have hscores : (shift c buf).mapIdx (fun i logit => logit + noise i) =
      shift c (buf.mapIdx fun i logit => logit + noise i) := by
    refine List.ext_getElem? fun i => ?_
    simp only [shift, List.getElem?_mapIdx, List.getElem?_map, Option.map_map]
    cases buf[i]? with
    | none => rfl
    | some v => simp only [Option.map_some, Function.comp_apply, shift_add]
  rw [gumbelArgmaxBuf, hscores, argmaxBuf_shift, gumbelArgmaxBuf]

end VllmOxide.Sampler
