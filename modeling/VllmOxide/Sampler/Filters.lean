import VllmOxide.Sampler.Device
import VllmOxide.Library.RunningSum
import Mathlib.Data.List.Perm.Lattice
import Mathlib.Data.List.TakeWhile

/-!
# Device and host filters keep the same tokens

The host masks a row in place: every entry below the `k`-th largest, and then every token whose rank in
the sorted masked row is past the nucleus. The device keeps a prefix of the sorted row and finds its
end from unnormalised sums over chunks. In exact arithmetic both keep the same prefix of the same order:
the masked entries move behind the kept ones and have no weight, and a running sum of nonnegative
weights is searched chunk by chunk as it is searched entry by entry.

## Main definitions

* `IsOrder`: the positions of a row by decreasing value, ties by position.
* `Kept`: the order of a row splits into what the top-k filter keeps and what it masks.

## Main results

* `topKLimit_spec`, `maskTopK_eq`: the top-k filters on the device and on the host.
* `topPCutoff_eq`, `maskTopP_spec`: the top-p filters on the device and on the host.
* `filters_agree`: both keep the same tokens.
-/

namespace VllmOxide.Sampler

open Extended

variable {R : Type*} [Field R] [LinearOrder R]

/-! ### Rows in order -/

/-- The value at a place of a row. -/
def place (values : List (WithBot R)) (i : ℕ) : WithBot R :=
  values.getD i ⊥

omit [Field R] [LinearOrder R] in
theorem entry_ofBot (values : List (WithBot R)) (i : ℕ) :
    entry (values.map ofBot) i = ofBot (place values i) := by
  simp only [entry, place, List.getD_eq_getElem?_getD, List.getElem?_map]
  cases values[i]? <;> rfl

omit [Field R] [LinearOrder R] in
theorem entry_mapIdx {f : ℕ → Extended R → Extended R} {buf : List (Extended R)} {i : ℕ}
    (hi : i < buf.length) : entry (buf.mapIdx f) i = f i (entry buf i) := by
  simp [entry, List.getD_eq_getElem?_getD, hi]

/-- The positions of a row by decreasing value, ties by position. -/
structure IsOrder (values : List (WithBot R)) (order : List ℕ) : Prop where
  perm : order.Perm (List.range values.length)
  ranked : Ranked (place values) (· < ·) order

omit [Field R] in
theorem IsOrder.eq {values : List (WithBot R)} {order order' : List ℕ} (h : IsOrder values order)
    (h' : IsOrder values order') : order = order' :=
  eq_of_ranked (fun _ _ h => h.asymm) h.ranked h'.ranked (h.perm.trans h'.perm.symm)

omit [Field R] in
theorem IsOrder.nodup {values : List (WithBot R)} {order : List ℕ} (h : IsOrder values order) :
    order.Nodup :=
  h.perm.nodup_iff.mpr List.nodup_range

omit [Field R] in
theorem descends_byEntry (values : List (WithBot R)) (xs : List ℕ) :
    Descends (place values) (byEntry (values.map ofBot)) xs := fun a _ b _ => by
  rw [byEntry, decide_eq_true_eq, entry_ofBot, entry_ofBot, ofBot_lt_ofBot]

omit [Field R] in
/-- The host's sort puts the positions of a row in order. -/
theorem isOrder_sort (sort : StableSort ℕ) (values : List (WithBot R)) :
    IsOrder values (sort.sort (byEntry (values.map ofBot)) (List.range values.length)) where
  perm := sort.perm _ _
  ranked := sort.ranked_sort (descends_byEntry values _) List.nodup_range List.pairwise_lt_range

omit [Field R] [LinearOrder R] in
theorem zip_range (buf : List (Extended R)) :
    buf.zip (List.range buf.length) =
      (List.range buf.length).map fun i => (entry buf i, i) := by
  refine List.ext_getElem (by simp) fun i hi hi' => ?_
  have hlt : i < buf.length := by simpa using hi'
  simp [entry, List.getD_eq_getElem?_getD, hlt]

omit [Field R] in
/-- The device's sort puts the token ids of a row in order, with their logits as keys. -/
theorem sortPairsDescending_spec (cub : StableSort (Extended R × ℕ)) (values : List (WithBot R)) :
    ∃ order, IsOrder values order ∧ sortPairsDescending cub (values.map ofBot) =
      (order.map (entry (values.map ofBot)), order) := by
  have hzip := zip_range (values.map ofBot)
  have hless : Descends (fun pair : Extended R × ℕ => place values pair.2)
      (fun a b => decide (b.1 < a.1))
      ((values.map ofBot).zip (List.range (values.map ofBot).length)) := by
    intro a ha b hb
    rw [hzip] at ha hb
    obtain ⟨i, -, rfl⟩ := List.mem_map.mp ha
    obtain ⟨j, -, rfl⟩ := List.mem_map.mp hb
    rw [decide_eq_true_eq, entry_ofBot, entry_ofBot, ofBot_lt_ofBot]
  have hperm := cub.perm (fun a b => decide (b.1 < a.1))
    ((values.map ofBot).zip (List.range (values.map ofBot).length))
  have hnodup : ((values.map ofBot).zip (List.range (values.map ofBot).length)).Nodup := by
    rw [hzip]
    exact List.nodup_range.map fun i j h => congrArg Prod.snd h
  have hids : ((values.map ofBot).zip (List.range (values.map ofBot).length)).Pairwise
      fun a b => a.2 < b.2 := by
    rw [hzip, List.pairwise_map]
    exact List.pairwise_lt_range
  have hranked := cub.ranked_sort hless hnodup hids
  simp only [sortPairsDescending, List.unzip_eq_map]
  generalize cub.sort (fun a b => decide (b.1 < a.1))
    ((values.map ofBot).zip (List.range (values.map ofBot).length)) = sorted at *
  have hkeys : sorted.map Prod.fst = (sorted.map Prod.snd).map (entry (values.map ofBot)) := by
    rw [List.map_map]
    refine List.map_congr_left fun pair hpair => ?_
    have hpair := hperm.mem_iff.mp hpair
    rw [hzip] at hpair
    obtain ⟨i, -, rfl⟩ := List.mem_map.mp hpair
    rfl
  refine ⟨sorted.map Prod.snd, ⟨?_, ?_⟩, by rw [hkeys]⟩
  · have := hperm.map Prod.snd
    rwa [hzip, List.map_map, show Prod.snd ∘ (fun i => (entry (values.map ofBot) i, i)) = id from rfl,
      List.map_id, List.length_map] at this
  · rw [Ranked, List.pairwise_map]
    exact hranked

/-! ### The top-k filter -/

/-- The order of a row splits into the places that a filter keeps and those that it masks. -/
structure Kept (values masked : List (WithBot R)) (kept rest : List ℕ) : Prop where
  order : IsOrder values (kept ++ rest)
  length_eq : masked.length = values.length
  same : ∀ i ∈ kept, place masked i = place values i
  gone : ∀ i ∈ rest, place masked i = ⊥
  ne_nil : kept ≠ []

omit [Field R] in
theorem takeWhile_beq (values : List (WithBot R)) (pivot : ℕ) (after : List ℕ) :
    ((after.map (entry (values.map ofBot))).takeWhile (· == entry (values.map ofBot) pivot)).length =
      (after.takeWhile fun i => decide (place values i = place values pivot)).length := by
  rw [List.takeWhile_map, List.length_map]
  congr 2
  funext i
  rw [Function.comp_apply, Bool.eq_iff_iff, decide_eq_true_eq, entry_ofBot, entry_ofBot,
    ofBot_beq_ofBot]

omit [Field R] in
/-- Where the top-k limit cuts a sorted row: past the ties of the `k`-th entry. -/
theorem topKLimit_spec {values : List (WithBot R)} {order : List ℕ} (ho : IsOrder values order)
    {k : ℕ} (hk : 1 ≤ k) (hlt : k < values.length) : ∃ before pivot after kept rest,
      order = before ++ pivot :: after ∧ before.length = k - 1 ∧ order = kept ++ rest ∧
      kept.length = topKLimit (order.map (entry (values.map ofBot))) k ∧ kept ≠ [] ∧
      (∀ i ∈ kept, place values pivot ≤ place values i) ∧
      ∀ i ∈ rest, place values i < place values pivot := by
  have hlength : order.length = values.length := by simpa using ho.perm.length_eq
  have hk' : k - 1 < order.length := by omega
  obtain ⟨before, pivot, after, hsplit, hbefore⟩ : ∃ before pivot after,
      order = before ++ pivot :: after ∧ before.length = k - 1 :=
    ⟨order.take (k - 1), order[k - 1], order.drop (k - 1 + 1), by
      rw [List.getElem_cons_drop, List.take_append_drop], by rw [List.length_take]; omega⟩
  subst hsplit
  have hranked := ho.ranked
  rw [Ranked, List.pairwise_append, List.pairwise_cons] at hranked
  obtain ⟨-, ⟨hafter, hrest⟩, hcross⟩ := hranked
  set tied := fun i => decide (place values i = place values pivot) with htied
  refine ⟨before, pivot, after, before ++ pivot :: after.takeWhile tied, after.dropWhile tied,
    rfl, hbefore, by simp, ?_, by simp, ?_, ?_⟩
  · have hdrop : (before ++ pivot :: after).drop k = after := by
      rw [List.append_cons, List.drop_left' (by simp; omega)]
    have hpivot : entry ((before ++ pivot :: after).map (entry (values.map ofBot))) (k - 1) =
        entry (values.map ofBot) pivot := by
      simp [entry, List.getD_eq_getElem?_getD, ← hbefore]
    rw [topKLimit, List.length_map, if_neg (by omega), ← List.map_drop, hdrop, hpivot]
    simp only [takeWhile_beq, List.length_append, List.length_cons, hbefore, htied]
    omega
  · intro i hi
    rcases List.mem_append.mp hi with hi | hi
    · exact (hcross i hi pivot List.mem_cons_self).le
    · rcases List.mem_cons.mp hi with rfl | hi
      · exact le_rfl
      · have := List.mem_takeWhile_imp hi
        exact (of_decide_eq_true this).ge
  · -- the first entry past the ties is smaller, and the later ones are not above it
    intro i hi
    cases hdrop : after.dropWhile tied with
    | nil => simp [hdrop] at hi
    | cons first later =>
      have hsub : (first :: later).Sublist after := hdrop ▸ List.dropWhile_sublist _
      have hfirst : place values first < place values pivot := by
        have hne : ¬ place values first = place values pivot := by
          have := List.head_dropWhile_not tied (l := after) (by simp [hdrop])
          simp only [hdrop, List.head_cons] at this
          simpa [htied] using this
        exact lt_of_le_of_ne (hafter first (hsub.subset (by simp))).le hne
      rw [hdrop] at hi
      rcases List.mem_cons.mp hi with rfl | hi
      · exact hfirst
      · exact ((List.pairwise_cons.mp (hrest.sublist hsub)).1 i hi).le.trans_lt hfirst

omit [Field R] in
/-- The host's top-k mask, once its threshold is known. -/
theorem maskTopK_eq (nth : NthSelection ℕ) {values : List (WithBot R)} {before after : List ℕ}
    {pivot k : ℕ} (ho : IsOrder values (before ++ pivot :: after)) (hbefore : before.length = k - 1) :
    maskTopK nth k (values.map ofBot) =
      (values.map fun x => if x < place values pivot then ⊥ else x).map ofBot := by
  obtain ⟨before', pivot', after', hselect, hbefore', hvalue⟩ :=
    nth.value_eq (descends_byEntry values _) ho.ranked ho.perm hbefore
  have hthreshold : entry (values.map ofBot)
      ((nth.select (byEntry (values.map ofBot)) (List.range (values.map ofBot).length) (k - 1)).getD
        (k - 1) 0) = ofBot (place values pivot) := by
    rw [List.length_map, hselect, ← hbefore', entry_ofBot, ← hvalue]
    simp [List.getD_eq_getElem?_getD]
  simp only [maskTopK, hthreshold, List.map_map]
  refine List.map_congr_left fun x _ => ?_
  simp only [Function.comp_apply, ofBot_lt_ofBot]
  split_ifs <;> rfl

omit [Field R] in
/-- What the top-k filters leave: the device's limit is the length of the kept part, and the host's
buffer is masked outside it. -/
theorem exists_kept (nth : NthSelection ℕ) {values : List (WithBot R)} {order : List ℕ}
    (ho : IsOrder values order) (hvalues : values ≠ []) {k : ℕ} (hk : 1 ≤ k) :
    ∃ masked kept rest, Kept values masked kept rest ∧ order = kept ++ rest ∧
      kept.length = topKLimit (order.map (entry (values.map ofBot))) k ∧
      (if k < values.length then maskTopK nth k (values.map ofBot) else values.map ofBot) =
        masked.map ofBot := by
  have hlength : order.length = values.length := by simpa using ho.perm.length_eq
  by_cases hlt : k < values.length
  · obtain ⟨before, pivot, after, kept, rest, hpivot, hbefore, hsplit, hlimit, hne, hge, hbelow⟩ :=
      topKLimit_spec ho hk hlt
    refine ⟨values.map fun x => if x < place values pivot then ⊥ else x, kept, rest,
      ⟨hsplit ▸ ho, by simp, fun i hi => ?_, fun i hi => ?_, hne⟩, hsplit, hlimit, ?_⟩
    · have := hge i hi
      simp only [place, List.getD_eq_getElem?_getD, List.getElem?_map] at this ⊢
      cases hvalue : values[i]? with
      | none => rfl
      | some x =>
        rw [hvalue, Option.getD_some] at this
        simp only [Option.map_some, Option.getD_some, if_neg (not_lt.mpr this)]
    · have := hbelow i hi
      simp only [place, List.getD_eq_getElem?_getD, List.getElem?_map] at this ⊢
      cases hvalue : values[i]? with
      | none => rfl
      | some x =>
        rw [hvalue, Option.getD_some] at this
        simp only [Option.map_some, Option.getD_some, if_pos this]
    · rw [if_pos hlt, maskTopK_eq nth (hpivot ▸ ho) hbefore]
  · have hpositive : 0 < values.length := List.length_pos_iff.mpr hvalues
    refine ⟨values, order, [], ⟨by rwa [List.append_nil], rfl, fun _ _ => rfl,
      fun i hi => absurd hi List.not_mem_nil, List.ne_nil_of_length_pos (hlength ▸ hpositive)⟩, by simp, ?_, by rw [if_neg hlt]⟩
    rw [topKLimit, List.length_map, if_pos (by omega)]

/-! ### The masked row in order -/

section Masked

variable {values masked : List (WithBot R)} {kept rest : List ℕ}

omit [Field R] in
theorem Kept.lt_length (h : Kept values masked kept rest) {i : ℕ} (hi : i ∈ kept ++ rest) :
    i < values.length :=
  List.mem_range.mp (h.order.perm.mem_iff.mp hi)

omit [Field R] in
/-- In the order of the masked row the kept places come first, and those behind them are masked. -/
theorem Kept.exists_order (h : Kept values masked kept rest)
    (hfinite : ∀ i < values.length, place values i ≠ ⊥) : ∃ rest',
      IsOrder masked (kept ++ rest') ∧ ∀ i ∈ rest', place masked i = ⊥ := by
  obtain ⟨hkept, -, hcross⟩ := List.pairwise_append.mp h.order.ranked
  obtain ⟨hnodup, hnodup', hdisjoint⟩ := List.nodup_append.mp h.order.nodup
  set rest' := (List.range values.length).filter fun i => decide (i ∈ rest) with hrest'
  have hmem : ∀ i, i ∈ rest' ↔ i ∈ rest := fun i => by
    rw [hrest', List.mem_filter, decide_eq_true_eq, List.mem_range]
    exact ⟨fun hi => hi.2, fun hi => ⟨h.lt_length (List.mem_append_right _ hi), hi⟩⟩
  have hgone : ∀ i ∈ rest', place masked i = ⊥ := fun i hi => h.gone i ((hmem i).mp hi)
  refine ⟨rest', ⟨?_, ?_⟩, hgone⟩
  · have hperm : rest'.Perm rest :=
      (List.perm_ext_iff_of_nodup (List.nodup_range.filter _) hnodup').mpr hmem
    rw [h.length_eq]
    exact (hperm.append_left kept).trans h.order.perm
  · refine List.pairwise_append.mpr ⟨?_, ?_, fun i hi j hj => ?_⟩
    · refine hkept.imp_of_mem fun {i j} hi hj hij => ?_
      rwa [Outranks, h.same i hi, h.same j hj]
    · refine (List.pairwise_lt_range.filter _).imp_of_mem fun {i j} hi hj hij => ?_
      exact .inr ⟨(hgone i hi).trans (hgone j hj).symm, hij⟩
    · refine .inl ?_
      rw [hgone j hj, h.same i hi]
      exact bot_lt_iff_ne_bot.mpr (hfinite i (h.lt_length (List.mem_append_left _ hi)))

end Masked

/-! ### The top-p filter on the host -/

theorem getD_foldl_set_of_notMem {idx : List ℕ} {token : ℕ} (h : token ∉ idx) (start : ℕ)
    (ranks : List ℕ) :
    ((idx.zipIdx start).foldl (fun ranks placed => ranks.set placed.1 placed.2) ranks).getD token 0 =
      ranks.getD token 0 := by
  induction idx generalizing start ranks with
  | nil => rfl
  | cons first idx ih =>
    rw [List.mem_cons, not_or] at h
    rw [List.zipIdx_cons, List.foldl_cons, ih h.2, List.getD_eq_getElem?_getD,
      List.getElem?_set_ne (Ne.symm h.1), List.getD_eq_getElem?_getD]

/-- The table of ranks holds the position of each token. -/
theorem getD_foldl_set {idx : List ℕ} {token : ℕ} (hnodup : idx.Nodup) (hmem : token ∈ idx)
    (start : ℕ) (ranks : List ℕ) (hlt : token < ranks.length) :
    ((idx.zipIdx start).foldl (fun ranks placed => ranks.set placed.1 placed.2) ranks).getD token 0 =
      start + idx.idxOf token := by
  induction idx generalizing start ranks with
  | nil => cases hmem
  | cons first idx ih =>
    obtain ⟨hnew, hnodup⟩ := List.nodup_cons.mp hnodup
    rw [List.zipIdx_cons, List.foldl_cons]
    by_cases hfirst : first = token
    · subst hfirst
      rw [getD_foldl_set_of_notMem hnew, List.getD_eq_getElem?_getD, List.getElem?_set_self hlt,
        Option.getD_some, List.idxOf_cons_self, Nat.add_zero]
    · have hmem : token ∈ idx := (List.mem_cons.mp hmem).resolve_left (Ne.symm hfirst)
      rw [ih hnodup hmem _ _ (by rwa [List.length_set]), List.idxOf_cons_ne _ hfirst]
      omega

theorem rankOfToken_eq {length token : ℕ} {idx : List ℕ} (hperm : idx.Perm (List.range length))
    (htoken : token < length) : (rankOfToken length idx).getD token 0 = idx.idxOf token := by
  rw [rankOfToken, getD_foldl_set (hperm.nodup_iff.mpr List.nodup_range)
    (hperm.mem_iff.mpr (List.mem_range.mpr htoken)) 0 _ (by rwa [List.length_replicate]), zero_add]

/-- A place is in a prefix of a list exactly when its position is. -/
theorem mem_take_iff_idxOf {idx : List ℕ} {token n : ℕ} (hmem : token ∈ idx) :
    token ∈ idx.take n ↔ idx.idxOf token < n := by
  induction idx generalizing n with
  | nil => cases hmem
  | cons first idx ih =>
    cases n with
    | zero => simp
    | succ n =>
      by_cases hfirst : first = token
      · simp [hfirst]
      · have hmem : token ∈ idx := (List.mem_cons.mp hmem).resolve_left (Ne.symm hfirst)
        rw [List.take_succ_cons, List.mem_cons, ih hmem, List.idxOf_cons_ne _ hfirst]
        simp [Ne.symm hfirst]

section Weights

variable [IsStrictOrderedRing R] (e : Exponential R)

/-- The weight of a value relative to the greatest one; a masked value has none. -/
def weightOf (max : R) : WithBot R → R
  | ⊥ => 0
  | (x : R) => e.toFun (x - max)

omit [IsStrictOrderedRing R] in
theorem exp_ofBot (max : R) (v : WithBot R) :
    e.exp (ofBot v - finite max) = finite (weightOf e max v) := by
  cases v with
  | bot => rfl
  | coe x => simp [weightOf]

omit [IsStrictOrderedRing R] in
theorem weightOf_pos (max : R) {v : WithBot R} (hv : v ≠ ⊥) : 0 < weightOf e max v := by
  cases v with
  | bot => exact absurd rfl hv
  | coe x => exact e.pos _

omit [IsStrictOrderedRing R] in
/-- The walk of the host is a search among the probabilities. -/
theorem nucleusCutoff_eq {total : R} (htotal : total ≠ 0) (p : R) (keepAll : ℕ) (weights : List R)
    (cumsum : R) (rank : ℕ) :
    nucleusCutoff (finite p) (finite total) keepAll (finite cumsum) rank (weights.map finite) =
      match reach p cumsum (weights.map (· / total)) with
      | some i => rank + i + 1
      | none => keepAll := by
  induction weights generalizing cumsum rank with
  | nil => rfl
  | cons weight weights ih =>
    simp only [List.map_cons, nucleusCutoff, reach, finite_div_finite htotal, finite_add_finite,
      finite_le_finite]
    split_ifs with hle
    · rfl
    · rw [ih]
      cases reach p (cumsum + weight / total) (weights.map (· / total)) with
      | none => rfl
      | some i => exact show rank + 1 + i + 1 = rank + (i + 1) + 1 by omega

variable {masked : List (WithBot R)} {kept rest : List ℕ} {top : ℕ} {max p : R}

omit [IsStrictOrderedRing R] in
theorem map_exp_entry (order : List ℕ) :
    (order.map fun tok => e.exp (entry (masked.map ofBot) tok - finite max)) =
      (order.map fun i => weightOf e max (place masked i)).map finite := by
  rw [List.map_map]
  exact List.map_congr_left fun i _ => by rw [entry_ofBot, exp_ofBot, Function.comp_apply]

omit [IsStrictOrderedRing R] in
/-- The sum over the buffer is the sum over its order. -/
theorem sum_map_exp {order : List ℕ} (hperm : order.Perm (List.range masked.length)) :
    Extended.sum ((masked.map ofBot).map fun v => e.exp (v - finite max)) =
      finite (order.map fun i => weightOf e max (place masked i)).sum := by
  have hbuf : ((masked.map ofBot).map fun v => e.exp (v - finite max)) =
      ((List.range masked.length).map fun i => weightOf e max (place masked i)).map finite := by
    refine List.ext_getElem (by simp) fun i hi hi' => ?_
    have hlt : i < masked.length := by simpa using hi
    simp [place, List.getD_eq_getElem?_getD, hlt, exp_ofBot]
  rw [hbuf, sum_map_finite, (hperm.map _).sum_eq]

theorem sum_weights_pos (hne : kept ≠ []) (hkept : ∀ i ∈ kept, place masked i ≠ ⊥) :
    0 < (kept.map fun i => weightOf e max (place masked i)).sum := by
  refine List.sum_pos _ (fun x hx => ?_) (by simpa using hne)
  obtain ⟨i, hi, rfl⟩ := List.mem_map.mp hx
  exact weightOf_pos e max (hkept i hi)

/-- What the host's top-p mask leaves: the kept places up to the first one whose running sum reaches
the share `p` of the whole sum. -/
theorem maskTopP_spec (sort : StableSort ℕ) (ho : IsOrder masked (kept ++ rest))
    (hkept : ∀ i ∈ kept, place masked i ≠ ⊥) (hgone : ∀ i ∈ rest, place masked i = ⊥)
    (htop : kept.head? = some top) (hmax : place masked top = max) (hp : 0 < p) (hp1 : p ≤ 1)
    {weights : List R} (hweights : weights = kept.map fun i => weightOf e max (place masked i)) :
    ∃ i, reach (p * weights.sum) 0 weights = some i ∧ ∀ token < masked.length,
      (entry (maskTopP sort e (finite p) (masked.map ofBot)) token ≠ negInf ↔
        token ∈ kept.take (i + 1)) := by
  have hne : kept ≠ [] := by
    rintro rfl
    cases htop
  have hpos : 0 < weights.sum := hweights ▸ sum_weights_pos e hne hkept
  have hsort := (isOrder_sort sort masked).eq ho
  have hsum : ((kept ++ rest).map fun i => weightOf e max (place masked i)).sum = weights.sum := by
    have hrest : (rest.map fun i => weightOf e max (place masked i)).sum = 0 :=
      List.sum_eq_zero fun x hx => by
        obtain ⟨i, hi, rfl⟩ := List.mem_map.mp hx
        rw [hgone i hi]
        rfl
    rw [List.map_append, List.sum_append, hrest, add_zero, hweights]
  have hshare : p * weights.sum ≤ 0 + weights.sum := by
    rw [zero_add]
    exact mul_le_of_le_one_left hpos.le hp1
  obtain ⟨i, hi⟩ := exists_reach (mul_pos hp hpos) hshare
  have hlt : i < kept.length := by
    have := lt_length_of_reach hi
    rwa [hweights, List.length_map] at this
  refine ⟨i, hi, fun token htoken => ?_⟩
  have hmem : token ∈ kept ++ rest := ho.perm.mem_iff.mpr (List.mem_range.mpr htoken)
  have hhead : entry (masked.map ofBot) ((kept ++ rest).getD 0 0) = finite max := by
    have : (kept ++ rest).getD 0 0 = top := by
      rw [List.getD_eq_getElem?_getD, ← List.head?_eq_getElem?, List.head?_append, htop]
      rfl
    rw [this, entry_ofBot, hmax, ofBot_coe]
  have hcutoff : nucleusCutoff (finite p) (finite weights.sum) masked.length 0 0
      ((kept ++ rest).map fun tok => e.exp (entry (masked.map ofBot) tok - finite max)) = i + 1 := by
    rw [map_exp_entry, zero_def, nucleusCutoff_eq hpos.ne', ← zero_div weights.sum, reach_div hpos,
      List.map_append, ← hweights, reach_append_of_le (mul_pos hp hpos) hshare, hi]
    simp
  have hinside : token ∈ kept.take (i + 1) ↔ (kept ++ rest).idxOf token < i + 1 := by
    rw [← mem_take_iff_idxOf hmem, List.take_append_of_le_length hlt]
  simp only [maskTopP, List.length_map, hsort, hhead, sum_map_exp e ho.perm, hsum, hcutoff]
  rw [entry_mapIdx (by rwa [List.length_map]), rankOfToken_eq ho.perm htoken, hinside]
  by_cases hrank : (kept ++ rest).idxOf token < i + 1
  · have hin : token ∈ kept := List.mem_of_mem_take (hinside.mpr hrank)
    rw [if_neg (not_le.mpr hrank), entry_ofBot, Ne, ofBot_eq_negInf]
    exact iff_of_true (hkept token hin) hrank
  · rw [if_pos (not_lt.mp hrank)]
    exact iff_of_false (fun h => h rfl) hrank

end Weights

/-! ### The top-p filter on the device -/

/-- Chunk arithmetic does not wrap around. -/
theorem chunkSize_eq {active : ℕ} (hactive : active ≤ I32_MAX) :
    chunkSize active = (active + 255) / 256 := by
  rw [I32_MAX] at hactive
  rw [chunkSize, wrap32, kThreads, Nat.mod_eq_of_lt (by omega), Nat.add_sub_assoc (by omega)]

theorem chunkIndices_eq {active chunk : ℕ} (hactive : active ≤ I32_MAX) (hchunk : chunk < kThreads) :
    chunkIndices active chunk = List.range' (chunk * chunkSize active)
      (min (chunkSize active) (active - chunk * chunkSize active)) := by
  have hsize := chunkSize_eq hactive
  rw [I32_MAX] at hactive
  have hbound : (chunk + 1) * chunkSize active ≤ 256 * chunkSize active :=
    Nat.mul_le_mul_right _ hchunk
  rw [Nat.succ_mul] at hbound
  rw [chunkIndices, wrap32, wrap32, Nat.mod_eq_of_lt (a := chunk * chunkSize active) (by omega),
    Nat.mod_eq_of_lt (by omega)]
  congr 1
  omega

section Chunks

variable [IsStrictOrderedRing R] {e : Exponential R} {keys : List (Extended R)} {weights : List R}

omit [LinearOrder R] [IsStrictOrderedRing R] in
/-- The weights at the indices of a chunk are one piece of the weights. -/
theorem map_chunkIndices {weight : ℕ → Extended R} {chunk : ℕ}
    (hactive : weights.length ≤ I32_MAX) (hchunk : chunk < kThreads)
    (hweight : ∀ i < weights.length, weight i = finite (weights.getD i 0)) :
    (chunkIndices weights.length chunk).map weight =
      (piece weights (chunkSize weights.length) chunk).map finite := by
  rw [chunkIndices_eq hactive hchunk]
  refine List.ext_getElem (by simp [piece]) fun i hi hi' => ?_
  have hlt : chunk * chunkSize weights.length + i < weights.length := by
    simp only [List.length_map, List.length_range'] at hi
    omega
  simp [piece, hweight _ hlt, List.getD_eq_getElem?_getD, hlt]

/-- The search for a chunk stops at the one in which the running sum reaches the target. -/
theorem selectChunk_spec {target : R} (chunks : List (List R))
    (hnonneg : ∀ chunk ∈ chunks, ∀ x ∈ chunk, 0 ≤ x) {acc : R} (hacc : acc < target) (start : ℕ) :
    ∃ cumulative j, selectChunk (finite target) (finite acc) start
        (chunks.map fun chunk => finite chunk.sum) = (finite cumulative, start + j) ∧
      ∀ i, reach target acc chunks.flatten = some i → ∃ chunk i', chunks[j]? = some chunk ∧
        reach target cumulative chunk = some i' ∧ i = (chunks.take j).flatten.length + i' := by
  induction chunks generalizing acc start with
  | nil => exact ⟨acc, 0, rfl, fun i hi => by cases hi⟩
  | cons chunk chunks ih =>
    obtain ⟨hchunk, hrest⟩ := List.forall_mem_cons.mp hnonneg
    rw [List.map_cons, selectChunk, finite_add_finite]
    by_cases hle : target ≤ acc + chunk.sum
    · refine ⟨acc, 0, by simp [hle], fun i hi => ⟨chunk, i, rfl, ?_, by simp⟩⟩
      rwa [List.flatten_cons, reach_append_of_le hacc hle] at hi
    · obtain ⟨cumulative, j, hselect, hreach⟩ := ih hrest (not_le.mp hle) (start + 1)
      refine ⟨cumulative, j + 1, ?_, fun i hi => ?_⟩
      · rw [if_neg (by simpa using hle), hselect]
        congr 1
        omega
      · rw [List.flatten_cons, reach_append_of_lt hchunk (not_le.mp hle)] at hi
        obtain ⟨i₀, hi₀, rfl⟩ := Option.map_eq_some_iff.mp hi
        obtain ⟨found, i', hget, hfound, rfl⟩ := hreach i₀ hi₀
        refine ⟨found, i', hget, hfound, ?_⟩
        rw [List.take_succ_cons, List.flatten_cons, List.length_append]
        omega

omit [IsStrictOrderedRing R] in
/-- The walk through a chunk is a search among its weights. -/
theorem walkChunk_eq {weight : ℕ → Extended R} {target cumulative : R} {first : ℕ} {chunk : List R}
    {indices : List ℕ} (hindices : indices = List.range' first chunk.length)
    (hweight : indices.map weight = chunk.map finite) :
    walkChunk weight (finite target) (finite cumulative) indices =
      (reach target cumulative chunk).map (first + · + 1) := by
  induction chunk generalizing first cumulative indices with
  | nil =>
    subst hindices
    rfl
  | cons x chunk ih =>
    rw [List.length_cons, List.range'_succ] at hindices
    subst hindices
    obtain ⟨hx, hrest⟩ := List.cons.inj hweight
    rw [walkChunk, hx, finite_add_finite, reach]
    by_cases hle : target ≤ cumulative + x
    · simp [hle]
    · rw [if_neg (by simpa using hle), if_neg hle, ih rfl hrest, Option.map_map]
      congr 1
      funext i
      simp only [Function.comp_apply]
      omega

/-- The device's top-p cutoff: the end of the first entry whose running sum reaches the share `p` of
the whole sum. -/
theorem topPCutoff_eq (hactive : weights.length ≤ I32_MAX)
    (hweight : ∀ i < weights.length,
      sortedWeight e keys (entry keys 0) i = finite (weights.getD i 0))
    (hnonneg : ∀ x ∈ weights, 0 ≤ x) {p : R} (hsum : 0 < p * weights.sum) {i : ℕ}
    (hi : reach (p * weights.sum) 0 weights = some i) :
    topPCutoff e keys weights.length (finite p) = i + 1 := by
  have hsize := chunkSize_eq hactive
  have hpieces : (pieces weights (chunkSize weights.length) kThreads).flatten = weights :=
    flatten_pieces (by rw [kThreads]; omega)
  have hsums : ((List.range kThreads).map fun chunk => Extended.sum
      ((chunkIndices weights.length chunk).map (sortedWeight e keys (entry keys 0)))) =
      (pieces weights (chunkSize weights.length) kThreads).map fun chunk => finite chunk.sum := by
    rw [pieces, List.map_map]
    refine List.map_congr_left fun chunk hchunk => ?_
    rw [map_chunkIndices hactive (List.mem_range.mp hchunk) hweight, sum_map_finite,
      Function.comp_apply]
  have htotal : Extended.sum
      ((pieces weights (chunkSize weights.length) kThreads).map fun chunk => finite chunk.sum) =
      finite weights.sum := by
    have : ((pieces weights (chunkSize weights.length) kThreads).map fun chunk =>
        (finite chunk.sum : Extended R)) =
        ((pieces weights (chunkSize weights.length) kThreads).map List.sum).map finite := by
      rw [List.map_map]
      rfl
    rw [this, sum_map_finite, ← List.sum_flatten, hpieces]
  obtain ⟨cumulative, j, hselect, hreach⟩ := selectChunk_spec
    (pieces weights (chunkSize weights.length) kThreads)
    (fun chunk hchunk x hx => hnonneg x (hpieces ▸ List.mem_flatten_of_mem hchunk hx)) hsum 0
  obtain ⟨chunk, i', hchunk, hfound, rfl⟩ := hreach i (by rw [hpieces, hi])
  obtain ⟨hj, rfl⟩ : j < kThreads ∧ piece weights (chunkSize weights.length) j = chunk := by
    have hj : j < kThreads := by
      have := (List.getElem?_eq_some_iff.mp hchunk).1
      simpa [pieces] using this
    rw [pieces, List.getElem?_map, List.getElem?_range hj] at hchunk
    exact ⟨hj, Option.some.inj hchunk⟩
  -- the piece is not empty, so the pieces before it are full
  have hlt := lt_length_of_reach hfound
  simp only [piece, List.length_take, List.length_drop] at hlt
  have hstart : ((pieces weights (chunkSize weights.length) kThreads).take j).flatten.length =
      j * chunkSize weights.length := by
    rw [flatten_take_pieces hj.le, List.length_take]
    omega
  have hindices : chunkIndices weights.length j = List.range' (j * chunkSize weights.length)
      (piece weights (chunkSize weights.length) j).length := by
    rw [chunkIndices_eq hactive hj, piece, List.length_take, List.length_drop]
  simp only [topPCutoff, hsums, htotal, finite_mul_finite, zero_def, hselect, zero_add, hj, if_true,
    walkChunk_eq hindices (map_chunkIndices hactive hj hweight), hfound, Option.map_some, Option.getD_some, hstart]


end Chunks

/-! ### Both filters together -/

section Agreement

variable [IsStrictOrderedRing R]

/-- A finite row among the rows that may be masked. -/
def unmasked (row : List R) : List (WithBot R) :=
  row.map WithBot.some

omit [Field R] [LinearOrder R] [IsStrictOrderedRing R] in
theorem map_ofBot_unmasked (row : List R) : (unmasked row).map ofBot = row.map finite := by
  rw [unmasked, List.map_map]
  rfl

omit [Field R] [LinearOrder R] [IsStrictOrderedRing R] in
theorem exists_place (row : List R) {i : ℕ} (hi : i < row.length) :
    ∃ x : R, place (unmasked row) i = x :=
  ⟨row[i], by simp [place, unmasked, List.getD_eq_getElem?_getD, hi]⟩

omit [IsStrictOrderedRing R] in
/-- The weights of the sorted keys are those of the kept places. -/
theorem sortedWeight_eq (e : Exponential R) {values masked : List (WithBot R)} {kept rest : List ℕ}
    (h : Kept values masked kept rest) {top : ℕ} {max : R} (htop : kept.head? = some top)
    (hmax : place values top = max) {i : ℕ} (hi : i < kept.length) :
    sortedWeight e ((kept ++ rest).map (entry (values.map ofBot)))
        (entry ((kept ++ rest).map (entry (values.map ofBot))) 0) i =
      finite ((kept.map fun i => weightOf e max (place masked i)).getD i 0) := by
  have hkey (j : ℕ) (hj : j < kept.length) :
      entry ((kept ++ rest).map (entry (values.map ofBot))) j = ofBot (place values kept[j]) := by
    rw [← entry_ofBot, List.map_append, entry, List.getD_eq_getElem?_getD,
      List.getElem?_append_left (by rwa [List.length_map]), List.getElem?_map,
      List.getElem?_eq_getElem hj, Option.map_some, Option.getD_some]
  have hhead : entry ((kept ++ rest).map (entry (values.map ofBot))) 0 = finite max := by
    have hzero : 0 < kept.length := by omega
    have : kept[0] = top := by
      rw [List.head?_eq_getElem?, List.getElem?_eq_getElem hzero] at htop
      exact Option.some.inj htop
    rw [hkey 0 hzero, this, hmax, ofBot_coe]
  rw [sortedWeight, hhead, hkey i hi, exp_ofBot, ← h.same _ (List.getElem_mem hi)]
  simp [List.getD_eq_getElem?_getD, hi]

/-- The tokens that the device keeps are those that the host leaves unmasked. -/
theorem filters_agree (cub : StableSort (Extended R × ℕ)) (env : Platform R)
    (params : SamplingParams R) (row : List R) (hrow : row.length ≤ I32_MAX) {k : ℕ} (hk : 1 ≤ k)
    (htopK : params.topK = some k) {p : R} (hp : 0 < p) (hp1 : p < 1)
    (htopP : params.topP = some (finite p)) :
    {token | token ∈ filteredTokens cub env.exp k (finite p) (row.map finite)} =
      {token | token < row.length ∧
        entry (maskRow env params (row.map finite)) token ≠ negInf} := by
  rw [← map_ofBot_unmasked]
  have hlength : (unmasked row).length = row.length := by simp [unmasked]
  have hplace {i : ℕ} (hi : i < (unmasked row).length) : ∃ x : R, place (unmasked row) i = x :=
    exists_place row (hlength ▸ hi)
  rw [← hlength] at hrow ⊢
  generalize unmasked row = values at *
  obtain ⟨order, ho, hsort⟩ := sortPairsDescending_spec cub values
  by_cases hvalues : values = []
  · subst hvalues
    obtain rfl : order = [] := by simpa using ho.perm
    rw [List.map_nil, List.map_nil] at hsort
    simp [filteredTokens, hsort]
  obtain ⟨masked, kept, rest, h, rfl, hlimit, hmasked⟩ := exists_kept env.nth ho hvalues hk
  have hfinite : ∀ i < values.length, place values i ≠ ⊥ := fun i hi => by
    obtain ⟨x, hx⟩ := hplace hi
    rw [hx]
    exact WithBot.coe_ne_bot
  obtain ⟨rest', ho', hgone⟩ := h.exists_order hfinite
  have hkept : ∀ i ∈ kept, place masked i ≠ ⊥ := fun i hi => by
    rw [h.same i hi]
    exact hfinite i (h.lt_length (List.mem_append_left _ hi))
  obtain ⟨top, htop⟩ : ∃ top, kept.head? = some top :=
    ⟨kept.head h.ne_nil, List.head?_eq_some_head h.ne_nil⟩
  have htop' : top ∈ kept := List.mem_of_head? htop
  obtain ⟨max, hmax⟩ := hplace (h.lt_length (List.mem_append_left rest htop'))
  set weights := kept.map fun i => weightOf env.exp max (place masked i) with hweights
  have hsum : 0 < weights.sum := sum_weights_pos env.exp h.ne_nil hkept
  have hcount : weights.length = kept.length := by rw [hweights, List.length_map]
  have hle : kept.length ≤ values.length := by
    have := h.order.perm.length_eq
    rw [List.length_append, List.length_range] at this
    omega
  obtain ⟨i, hi, hhost⟩ := maskTopP_spec env.exp env.sort ho' hkept hgone htop
    ((h.same top htop').trans hmax) hp hp1.le hweights
  have hnonneg : ∀ x ∈ weights, 0 ≤ x := fun x hx => by
    obtain ⟨j, hj, rfl⟩ := List.mem_map.mp hx
    exact (weightOf_pos env.exp max (hkept j hj)).le
  have hdevice := topPCutoff_eq (hcount ▸ hle.trans hrow)
    (fun j hj => sortedWeight_eq env.exp h htop hmax (hcount ▸ hj)) hnonneg (mul_pos hp hsum) hi
  have hi' : i + 1 ≤ kept.length := hcount ▸ lt_length_of_reach hi
  have hrowMasked : maskRow env params (values.map ofBot) =
      maskTopP env.sort env.exp (finite p) (masked.map ofBot) := by
    have hguard : (0 : Extended R) < finite p ∧ finite p < (1 : Extended R) := ⟨hp, hp1⟩
    rw [maskRow, topKStep, htopK, List.length_map]
    simp only [hk, true_and, hmasked, topPStep, htopP, hguard, and_self, if_true]
  have hfiltered : filteredTokens cub env.exp k (finite p) (values.map ofBot) =
      kept.take (i + 1) := by
    rw [hcount] at hdevice
    rw [filteredTokens, hsort]
    simp only [← hlimit, hdevice, List.take_append_of_le_length hi']
  rw [hrowMasked, hfiltered, ← h.length_eq]
  refine Set.ext fun token => ⟨fun htoken => ?_, fun htoken => (hhost token htoken.1).mp htoken.2⟩
  have hlt : token < masked.length := h.length_eq ▸
    h.lt_length (List.mem_append_left _ (List.mem_of_mem_take htoken))
  exact ⟨hlt, (hhost token hlt).mpr htoken⟩

/-- Two entries tie at the second place. -/
theorem filters_agree_example :
    let params : SamplingParams ℚ := ⟨finite 1, some 2, some (finite (3 / 4)), 16, 0, 0, 0⟩
    {token | token ∈ filteredTokens .mergeSort Platform.rational.exp 2 (finite (3 / 4))
        ([1, 2, 3, 2].map finite)} =
      {token | token < 4 ∧ entry (maskRow .rational params ([1, 2, 3, 2].map finite)) token ≠ negInf} :=
  filters_agree .mergeSort .rational _ [1, 2, 3, 2] (by simp [I32_MAX]) (by simp) rfl
    (by norm_num) (by norm_num) rfl

end Agreement

end VllmOxide.Sampler
