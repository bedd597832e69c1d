import VllmOxide.Attention.Dense

/-!
# Packed attention

In a packed layout the members are computed one by one, each from its own rows and keys, over all
heads at once or head by head. The result for a member is the same: the attention of the logical
position of each of its rows.

## Main results

* `memberLength_cumulative`, `toNat_cumulative`: the lengths and first rows of the members.
* `Tensor.cat_heads`: heads put together.
* `packedMember_gives`: the attention of one member.
-/

namespace VllmOxide

/-! ### Members of cumulative lengths -/

theorem memberLength_cons_succ (start : UInt32) (cuSeqlens : List UInt32) (member : ℕ) :
    memberLength (start :: cuSeqlens) (member + 1) = memberLength cuSeqlens member := rfl

/-- The length of a member. -/
theorem memberLength_cumulative {start length : UInt32} {lengths : List UInt32} {member : ℕ}
    (h : lengths[member]? = some length) :
    memberLength (cumulative start lengths) member = length.toNat := by
  induction lengths generalizing start member with
  | nil => simp at h
  | cons first rest ih =>
    cases member with
    | zero =>
      obtain rfl : first = length := by simpa using h
      obtain ⟨tail, htail⟩ := cumulative_eq_cons (start + first) rest
      have hlast : start + first - start = first := by
        rw [UInt32.add_comm, UInt32.add_sub_cancel]
      rw [cumulative, htail]
      show (start + first - start).toNat = first.toNat
      rw [hlast]
    | succ member =>
      rw [cumulative, memberLength_cons_succ]
      exact ih (by simpa using h)

/-- The first row of a member. -/
def firstRow (lengths : List UInt32) (member : ℕ) : ℕ :=
  total (lengths.take member)

@[simp] theorem total_nil : total [] = 0 := rfl

@[simp] theorem total_cons (length : UInt32) (lengths : List UInt32) :
    total (length :: lengths) = length.toNat + total lengths := rfl

theorem firstRow_zero (lengths : List UInt32) : firstRow lengths 0 = 0 := rfl

theorem firstRow_succ_cons (length : UInt32) (lengths : List UInt32) (member : ℕ) :
    firstRow (length :: lengths) (member + 1) = length.toNat + firstRow lengths member := rfl

/-- The rows of a member are within the rows of the batch. -/
theorem firstRow_add_le {lengths : List UInt32} {length : UInt32} {member : ℕ}
    (h : lengths[member]? = some length) :
    firstRow lengths member + length.toNat ≤ total lengths := by
  induction lengths generalizing member with
  | nil => simp at h
  | cons first rest ih =>
    cases member with
    | zero =>
      obtain rfl : first = length := by simpa using h
      rw [firstRow_zero, total_cons]
      omega
    | succ member =>
      have := ih (show rest[member]? = some length by simpa using h)
      rw [firstRow_succ_cons, total_cons]
      omega

/-- The cumulative length before a member is its first row, when the lengths fit. -/
theorem toNat_cumulative {start : UInt32} {lengths : List UInt32} {member : ℕ}
    (hmember : member ≤ lengths.length) (hfits : start.toNat + total lengths < 4294967296) :
    ((cumulative start lengths).getD member 0).toNat = start.toNat + firstRow lengths member := by
  induction lengths generalizing start member with
  | nil =>
    obtain rfl : member = 0 := by simpa using hmember
    rfl
  | cons first rest ih =>
    cases member with
    | zero => rfl
    | succ member =>
      rw [total_cons] at hfits
      have hnext : (start + first).toNat = start.toNat + first.toNat :=
        toNat_add_of_lt (by omega)
      have hrest : ((cumulative (start + first) rest).getD member 0).toNat =
          (start + first).toNat + firstRow rest member := ih (by simpa using hmember) (by omega)
      rw [firstRow_succ_cons, ← Nat.add_assoc, ← hnext, ← hrest]
      rfl

/-- Every row is one of a member. -/
theorem exists_row {lengths : List UInt32} {n : ℕ} (h : n < total lengths) :
    ∃ member length row, lengths[member]? = some length ∧ row < length.toNat ∧
      n = firstRow lengths member + row := by
  induction lengths generalizing n with
  | nil => cases h
  | cons first rest ih =>
    rw [total_cons] at h
    by_cases hfirst : n < first.toNat
    · exact ⟨0, first, n, rfl, hfirst, (Nat.zero_add n).symm⟩
    · obtain ⟨member, length, row, hmember, hrow, hn⟩ := ih (n := n - first.toNat) (by omega)
      refine ⟨member + 1, length, row, hmember, hrow, ?_⟩
      rw [firstRow_succ_cons]
      omega

/-- The rows of the members are consecutive pieces of the rows of the batch. -/
theorem tiles_lengths (start : ℕ) (lengths : List UInt32) :
    tiles start (lengths.map UInt32.toNat) =
      (List.range lengths.length).map fun member =>
        (start + firstRow lengths member, (lengths.getD member 0).toNat) := by
  induction lengths generalizing start with
  | nil => rfl
  | cons first rest ih =>
    rw [List.map_cons, tiles, ih, List.length_cons, List.range_succ_eq_map, List.map_cons,
      List.map_map, firstRow_zero]
    refine congrArg _ (List.map_congr_left fun member _ => ?_)
    simp only [Function.comp_apply, Nat.succ_eq_add_one, firstRow_succ_cons, Nat.add_assoc]
    rfl

/-! ### Heads -/

/-- Consecutive pieces of one length. -/
theorem tiles_replicate (start n count : ℕ) :
    tiles start (List.replicate n count) = (List.range n).map fun i => (start + i * count, count) := by
  induction n generalizing start with
  | zero => rfl
  | succ n ih =>
    rw [List.replicate_succ, tiles, ih, List.range_succ_eq_map, List.map_cons, List.map_map,
      Nat.zero_mul, Nat.add_zero]
    refine congrArg _ (List.map_congr_left fun i _ => ?_)
    simp only [Function.comp_apply, Nat.succ_eq_add_one]
    rw [Nat.succ_mul, Nat.add_assoc, Nat.add_comm count]

/-- Heads that are computed one by one, put together. -/
theorem Tensor.cat_heads {R : Type} [Zero R] {a n c : ℕ} (f : ℕ → ℕ → ℕ → R) (hn : 0 < n) :
    Tensor.cat ((List.range n).map fun head => Tensor.ofFn3 a 1 c fun i _ k => f i head k) 1 =
      .ok (Tensor.ofFn3 a n c f) := by
  have h := Tensor.cat1_ofFn3 (a := a) (c := c) (List.replicate n 1) f
    (by simp; omega)
  have hsum : (List.replicate n 1).sum = n := by simp
  rw [tiles_replicate, List.map_map, hsum] at h
  rw [← h]
  refine congrArg (Tensor.cat · 1) (List.map_congr_left fun head _ => ?_)
  refine Tensor.ofFn3_congr fun i j k _ hj _ => ?_
  rw [Nat.lt_one_iff.mp hj]
  simp only [Nat.zero_add, Nat.mul_one, Nat.add_zero]

/-! ### One member -/

variable {R : Type} [Field R] [LinearOrder R]

section Member

variable {P : Prop} {arithmetic : ExactArithmetic R} {prepared : PreparedAttention}
  {member queries keys dim chunk : ℕ} {scale : R}

/-- The attention of a member computed as a batch of its own. -/
theorem single_gives (kvHeads group : ℕ) (fq fk fv : ℕ → ℕ → ℕ → R)
    (hmember : member + 1 < prepared.logical.cuSeqlensQ.length)
    (hqueries : memberLength prepared.logical.cuSeqlensQ member = queries)
    (hkeys : memberLength prepared.logical.cuSeqlensK member = keys)
    (hcausal : queries ≤ keys) (hpos : 0 < queries)
    (hkvHeads : 0 < kvHeads) (hgroup : 0 < group) (hchunk : 0 < chunk) (hscale : 0 < scale)
    (hlaunch : P → kvHeads * group * queries * keys ≤ LAUNCH_CAPACITY)
    (hsize : P → member + 1 ≤ USIZE_MAX) :
    Gives P
      (do
        dense arithmetic (← asBatch (Tensor.ofFn3 queries (kvHeads * group) dim fq))
          (← asBatch (Tensor.ofFn3 keys kvHeads dim fk)) (← asBatch (Tensor.ofFn3 keys kvHeads dim fv))
          prepared scale member chunk)
      (· = Tensor.ofFn3 queries (kvHeads * group) dim fun row h d =>
        causalAttention arithmetic.exp (keys - queries + row)
          (fun position => score scale dim (fq row h) (fk position (h / group)))
          fun position => fv position (h / group) d) := by
  have hfits : Fits prepared member 1 queries keys :=
    { member_lt := hmember
      le_queries := fun m hm => by rw [Nat.lt_one_iff.mp hm, Nat.add_zero, hqueries]
      le_keys := fun m hm => by rw [Nat.lt_one_iff.mp hm, Nat.add_zero, hkeys]
      causal := fun m hm => by rw [Nat.lt_one_iff.mp hm, Nat.add_zero, hqueries, hkeys]; exact hcausal
      queries_le := hcausal
      queries_pos := hpos }
  refine Gives.bindEq (Gives.of_eq_ok (Tensor.reshape_unsqueeze fq) rfl) ?_
  refine Gives.bindEq (Gives.of_eq_ok (Tensor.reshape_unsqueeze fk) rfl) ?_
  refine Gives.bindEq (Gives.of_eq_ok (Tensor.reshape_unsqueeze fv) rfl) ?_
  refine (dense_gives _ _ _ hfits Nat.one_pos hkvHeads hgroup hchunk hscale
    (by simpa using hlaunch) hsize).imp fun out hout => ?_
  rw [hout, Nat.one_mul]
  refine Tensor.ofFn3_congr fun row h d hrow _ _ => ?_
  rw [Nat.div_eq_of_lt hrow, Nat.mod_eq_of_lt hrow, Nat.add_zero, rowOutput, rowPosition, keyPadding,
    queryPadding, hqueries, hkeys]
  simp

/-- **The attention of one member**, over all heads or head by head. -/
theorem packedMember_gives {kvHeads group : ℕ} (fq fk fv : ℕ → ℕ → ℕ → R)
    (hmember : member + 1 < prepared.logical.cuSeqlensQ.length)
    (hqueries : memberLength prepared.logical.cuSeqlensQ member = queries)
    (hkeys : memberLength prepared.logical.cuSeqlensK member = keys)
    (hcausal : queries ≤ keys) (hpos : 0 < queries)
    (hkvHeads : 0 < kvHeads) (hgroup : 0 < group) (hscale : 0 < scale)
    {work : QueryWork} (hwork : prepared.packedWork[member]? = some work) (hchunk : 0 < work.queryChunk)
    (hlaunch : P → kvHeads * group * queries * keys ≤ LAUNCH_CAPACITY)
    (hsize : P → member + 1 ≤ USIZE_MAX) :
    Gives P
      (packedMember arithmetic (Tensor.ofFn3 queries (kvHeads * group) dim fq)
        (Tensor.ofFn3 keys kvHeads dim fk) (Tensor.ofFn3 keys kvHeads dim fv) prepared scale member)
      (· = Tensor.ofFn3 queries (kvHeads * group) dim fun row h d =>
        causalAttention arithmetic.exp (keys - queries + row)
          (fun position => score scale dim (fq row h) (fk position (h / group)))
          fun position => fv position (h / group) d) := by
  have hqueryWork : prepared.queryWork member = .ok work := by
    rw [PreparedAttention.queryWork, hwork]
  have hheads : 0 < kvHeads * group := Nat.mul_pos hkvHeads hgroup
  refine Gives.bindEq (Gives.of_eq_ok hqueryWork rfl) ?_
  split
  · exact single_gives kvHeads group fq fk fv hmember hqueries hkeys hcausal hpos hkvHeads hgroup hchunk hscale
      hlaunch hsize
  · refine Gives.bindEq (Gives.of_eq_ok rfl rfl) ?_
    refine Gives.bindEq (Gives.of_eq_ok rfl rfl) ?_
    dsimp only
    rw [Nat.mul_div_cancel_left _ hkvHeads]
    refine Gives.bindEq (Gives.mapM (F := fun head => Tensor.ofFn3 queries 1 dim fun row _ d =>
      causalAttention arithmetic.exp (keys - queries + row)
        (fun position => score scale dim (fq row head) (fk position (head / group)))
        fun position => fv position (head / group) d) fun head hhead => ?_) ?_
    · have hhead : head < kvHeads * group := List.mem_range.mp hhead
      have hkvHead : head / group < kvHeads := (Nat.div_lt_iff_lt_mul hgroup).mpr hhead
      refine Gives.bindEq (Gives.of_eq_ok (Tensor.narrow1_ofFn3 hhead) rfl) ?_
      refine Gives.bindEq (Gives.of_eq_ok (Tensor.narrow1_ofFn3 hkvHead) rfl) ?_
      refine Gives.bindEq (Gives.of_eq_ok (Tensor.narrow1_ofFn3 hkvHead) rfl) ?_
      have hone : P → 1 * 1 * queries * keys ≤ LAUNCH_CAPACITY := fun hP =>
        (Nat.mul_le_mul_right _ (Nat.mul_le_mul_right _ hheads)).trans (hlaunch hP)
      refine (single_gives 1 1 _ _ _ hmember hqueries hkeys hcausal hpos
        Nat.one_pos Nat.one_pos hchunk hscale hone hsize).imp fun out hout => ?_
      rw [hout]
      refine Tensor.ofFn3_congr fun row h d _ hh _ => ?_
      rw [Nat.lt_one_iff.mp hh]
      simp
    · exact Gives.of_eq_ok (Tensor.cat_heads _ hheads) rfl

end Member

end VllmOxide
