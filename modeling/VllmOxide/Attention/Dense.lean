import Mathlib.Algebra.BigOperators.Ring.Finset
import Mathlib.Algebra.Order.BigOperators.GroupWithZero.List
import VllmOxide.Attention.Window

/-!
# Dense attention

`dense` computes the attention of a rectangular batch in which each member stands at the end of its
rows and of its columns. It is shown to give every row of a member the attention of the logical
position of that row, whatever the padding holds and however the rows are cut into chunks, and zeros
to the rows of padding.

## Main definitions

* `Launchable`: the numbers of elements for which the launches are not refused.
* `memberAttention`: the attention of a row of a member.

## Main results

* `softmax_gives`: the masked softmax of the scores of a chunk.
* `dense_gives`: the attention of a rectangular batch.
-/

namespace VllmOxide

/-! ### Launches -/

theorem divCeil_eq {n size : ℕ} (hsize : 0 < size) : divCeil n size = (n + size - 1) / size := by
  have hsplit := Nat.div_add_mod n size
  have hmod := Nat.mod_lt n hsize
  rw [divCeil]
  split
  · refine (Nat.div_eq_of_lt_le ?_ ?_).symm
    · calc (n / size + 1) * size = size * (n / size) + size := by ring
        _ ≤ n + size - 1 := by omega
    · calc n + size - 1 < size * (n / size) + size + size := by omega
        _ = (n / size + 1 + 1) * size := by ring
  · refine (Nat.div_eq_of_lt_le ?_ ?_).symm
    · calc (n / size + 0) * size = size * (n / size) := by ring
        _ ≤ n + size - 1 := by omega
    · calc n + size - 1 < size * (n / size) + size := by omega
        _ = (n / size + 0 + 1) * size := by ring

/-- A product of positive factors that fits is computed. -/
theorem product_eq {values : List ℕ} (hpos : ∀ value ∈ values, 0 < value)
    (hfits : values.prod ≤ USIZE_MAX) : product values = some values.prod := by
  have hfold : ∀ (rest : List ℕ) (done : ℕ), (∀ value ∈ rest, 0 < value) →
      done * rest.prod ≤ USIZE_MAX → rest.foldlM checkedMul done = some (done * rest.prod) := by
    intro rest
    induction rest with
    | nil =>
      intro done _ _
      simp
    | cons value rest ih =>
      intro done hpos hfits
      rw [List.prod_cons, ← Nat.mul_assoc] at hfits
      have hrest : 0 < rest.prod :=
        List.prod_pos fun value hvalue => hpos value (List.mem_cons_of_mem _ hvalue)
      have hstep : done * value ≤ USIZE_MAX := (Nat.le_mul_of_pos_right _ hrest).trans hfits
      have hmul : checkedMul done value = some (done * value) := by rw [checkedMul, if_pos hstep]
      rw [List.foldlM_cons, hmul]
      show rest.foldlM checkedMul (done * value) = _
      rw [ih _ (fun value hvalue => hpos value (List.mem_cons_of_mem _ hvalue)) hfits,
        List.prod_cons, Nat.mul_assoc]
  rw [product, hfold values 1 hpos (by rwa [Nat.one_mul]), Nat.one_mul]

theorem LAUNCH_CAPACITY_le : LAUNCH_CAPACITY ≤ USIZE_MAX := by
  simp only [LAUNCH_CAPACITY, USIZE_MAX]
  omega

variable {P : Prop}

/-- A launch with elements is refused only beyond the capacity. -/
theorem launchCount_gives {shape : List ℕ} (hpos : ∀ d ∈ shape, 0 < d)
    (hfits : P → shape.prod ≤ LAUNCH_CAPACITY) : Gives P (launchCount shape) (· = shape.prod) := by
  have hprod : 0 < shape.prod := List.prod_pos hpos
  have hvalue : ∀ count, product shape = some count → count = shape.prod := by
    intro count hcount
    have hfold : ∀ (rest : List ℕ) (done result : ℕ),
        rest.foldlM checkedMul done = some result → result = done * rest.prod := by
      intro rest
      induction rest with
      | nil =>
        intro done result h
        rw [List.foldlM_nil] at h
        rw [List.prod_nil, Nat.mul_one]
        exact (Option.some.inj h).symm
      | cons value rest ih =>
        intro done result h
        rw [List.foldlM_cons] at h
        obtain ⟨next, hnext, h⟩ := Option.bind_eq_some_iff.mp h
        rw [checkedMul] at hnext
        split at hnext
        · obtain rfl := Option.some.inj hnext
          rw [ih _ _ h, List.prod_cons, Nat.mul_assoc]
        · cases hnext
    rw [hfold shape 1 count hcount, Nat.one_mul]
  rw [launchCount]
  split
  · rename_i hnone
    refine Gives.error fun hP => ?_
    rw [product_eq hpos ((hfits hP).trans LAUNCH_CAPACITY_le)] at hnone
    cases hnone
  · rename_i count hcount
    obtain rfl := hvalue count hcount
    refine Gives.ite_error (fun hP => ?_) fun _ => Gives.ok rfl
    have hcapacity := hfits hP
    rw [LAUNCH_CAPACITY] at hcapacity
    have hblocks : divCeil shape.prod 256 ≤ 2147483647 := divCeil_le (by omega)
    omega

theorem sizeSub_of_le {a b : ℕ} (h : b ≤ a) : sizeSub a b = a - b := by
  rw [sizeSub, if_pos h]

/-! ### Scores -/

variable {R : Type} [Field R] [LinearOrder R]

/-- The lengths of the members of a batch fit the rows and columns of a rectangular computation. -/
structure Fits (prepared : PreparedAttention) (memberOffset batch queries keys : ℕ) : Prop where
  member_lt : memberOffset + batch < prepared.logical.cuSeqlensQ.length
  le_queries : ∀ m < batch, memberLength prepared.logical.cuSeqlensQ (memberOffset + m) ≤ queries
  le_keys : ∀ m < batch, memberLength prepared.logical.cuSeqlensK (memberOffset + m) ≤ keys
  causal : ∀ m < batch, memberLength prepared.logical.cuSeqlensQ (memberOffset + m) ≤
    memberLength prepared.logical.cuSeqlensK (memberOffset + m)
  queries_le : queries ≤ keys
  queries_pos : 0 < queries

/-- The columns of padding before the keys of a member. -/
def keyPadding (prepared : PreparedAttention) (keys member : ℕ) : ℕ :=
  keys - memberLength prepared.logical.cuSeqlensK member

/-- The rows of padding before the queries of a member. -/
def queryPadding (prepared : PreparedAttention) (queries member : ℕ) : ℕ :=
  queries - memberLength prepared.logical.cuSeqlensQ member

/-- The logical position of a row of a member. -/
def rowPosition (prepared : PreparedAttention) (queries member row : ℕ) : ℕ :=
  memberLength prepared.logical.cuSeqlensK member - memberLength prepared.logical.cuSeqlensQ member +
    (row - queryPadding prepared queries member)

/-- The weight of a column in a row of a member. -/
def columnWeight (exp : R → R) (prepared : PreparedAttention) (queries keys member row : ℕ)
    (score : ℕ → R) (column : ℕ) : R :=
  let padding := keyPadding prepared keys member
  let last := rowPosition prepared queries member row
  if row < queryPadding prepared queries member then 0
  else if column < padding ∨ padding + last < column then 0
  else causalWeight exp last (fun position => score (padding + position)) (column - padding)

namespace Fits

variable {prepared : PreparedAttention} {memberOffset batch queries keys m : ℕ}

/-- The window of a row ends within the columns, at the column of the mask. -/
theorem window (h : Fits prepared memberOffset batch queries keys) (hm : m < batch) {row : ℕ}
    (hrow : row < queries) (hvalid : queryPadding prepared queries (memberOffset + m) ≤ row) :
    keyPadding prepared keys (memberOffset + m) +
        rowPosition prepared queries (memberOffset + m) row = keys - queries + row ∧
      keys - queries + row < keys := by
  have hqueries := h.le_queries m hm
  have hkeys := h.le_keys m hm
  have hcausal := h.causal m hm
  have hle := h.queries_le
  simp only [queryPadding, keyPadding, rowPosition] at hvalid ⊢
  omega

end Fits

/-- The member of a row of scores, and its query. -/
theorem row_place (heads j : ℕ) {count i : ℕ} (hi : i < count) :
    (j * count + i) / (heads * count) = j / heads ∧ (j * count + i) % count = i := by
  have hcount : 0 < count := by omega
  constructor
  · rw [Nat.mul_comm heads, ← Nat.div_div_eq_div_mul, Nat.add_comm, Nat.add_mul_div_right _ _ hcount,
      Nat.div_eq_of_lt hi, Nat.zero_add]
  · rw [Nat.add_comm, Nat.add_mul_mod_self_right, Nat.mod_eq_of_lt hi]

section Softmax

variable {prepared : PreparedAttention} {memberOffset batch heads queries keys start count : ℕ}

omit [LinearOrder R] in
/-- A row of masked scores: everything is masked in a row of padding, and else a window is left. -/
theorem maskedRow_eq (score : ℕ → ℕ → ℕ → R) (hfits : Fits prepared memberOffset batch queries keys)
    (hstart : start + count ≤ queries) {j i : ℕ} (hj : j < batch * heads) (hi : i < count) :
    let scores := Tensor.ofFn3 (batch * heads) count keys score
    let mask : AttentionMask :=
      { queries, keys, heads, queryStart := start, chunkRows := count, memberOffset }
    let member := memberOffset + j / heads
    let row := maskedRow scores (j * count + i) prepared.logical.cuSeqlensQ
      prepared.logical.cuSeqlensK mask
    (queryValid (j * count + i) prepared.logical.cuSeqlensQ mask = true ↔
        queryPadding prepared queries member ≤ start + i) ∧
      (start + i < queryPadding prepared queries member → ∀ value ∈ row, value = none) ∧
      (queryPadding prepared queries member ≤ start + i →
        row = windowRow keys (keyPadding prepared keys member)
          (rowPosition prepared queries member (start + i)) fun position =>
            score j i (keyPadding prepared keys member + position)) := by
  intro scores mask member row
  have hheads : 0 < heads := Nat.pos_of_ne_zero fun hzero => by simp [hzero] at hj
  have hm : j / heads < batch := (Nat.div_lt_iff_lt_mul hheads).mpr hj
  obtain ⟨hmember, hquery⟩ := row_place heads j hi
  have hmember : mask.member (j * count + i) = member := congrArg (memberOffset + ·) hmember
  have hquery : mask.query (j * count + i) = start + i := congrArg (start + ·) hquery
  have hqueries := hfits.le_queries _ hm
  have hkeys := hfits.le_keys _ hm
  have hvalid : queryValid (j * count + i) prepared.logical.cuSeqlensQ mask = true ↔
      queryPadding prepared queries member ≤ start + i := by
    rw [queryValid, hmember, hquery]
    show decide (sizeSub queries _ ≤ start + i ∧ start + i < queries) = true ↔ _
    rw [decide_eq_true_eq, sizeSub_of_le hqueries]
    exact ⟨fun h => h.1, fun h => ⟨h, by omega⟩⟩
  refine ⟨hvalid, fun hpadding value hvalue => ?_, fun hreal => ?_⟩
  · obtain ⟨column, -, rfl⟩ := List.mem_map.mp hvalue
    rw [maskedValue, if_pos]
    refine Or.inl (Bool.eq_false_iff.mpr fun htrue => ?_)
    have := hvalid.mp htrue
    omega
  · obtain ⟨hwindow, hlast⟩ := hfits.window hm (show start + i < queries by omega) hreal
    refine List.map_congr_left fun column hcolumn => ?_
    have hcolumn : column < keys := List.mem_range.mp hcolumn
    have htrue := hvalid.mpr hreal
    have hle := hfits.queries_le
    rw [maskedValue, hmember, hquery, htrue]
    show (if true = false ∨ column < sizeSub keys _ ∨ sizeSub keys queries + (start + i) < column then
      none else _) = _
    rw [sizeSub_of_le hkeys, sizeSub_of_le hle]
    have hsame : (true = false ∨ column < keys - memberLength prepared.logical.cuSeqlensK member ∨
        keys - queries + (start + i) < column) ↔
        (column < keyPadding prepared keys member ∨
          keyPadding prepared keys member + rowPosition prepared queries member (start + i) <
            column) := by
      rw [show keyPadding prepared keys member = keyPadding prepared keys (memberOffset + j / heads)
        from rfl, show rowPosition prepared queries member (start + i) =
          rowPosition prepared queries (memberOffset + j / heads) (start + i) from rfl, hwindow]
      simp [keyPadding, member]
    rw [if_congr hsame rfl rfl]
    split
    · rfl
    · rename_i hinside
      have hentry : scores.entry ((j * count + i) * keys + column) = score j i column :=
        Tensor.entry_ofFn3 hj hi hcolumn
      show some (scores.entry ((j * count + i) * keys + column) + 0) = _
      have hplace : keyPadding prepared keys member + (column - keyPadding prepared keys member) =
          column := by omega
      rw [hentry, add_zero]
      exact congrArg (fun column => some (score j i column)) hplace.symm

omit [Field R] [LinearOrder R] in
/-- The checks before a launch on rows of scores pass. -/
theorem attentionRows_gives {P : Prop} {scores : Tensor R} {mask : AttentionMask} {batchHeads : ℕ}
    (hdims : scores.dims = [batchHeads, count, keys]) (hbatch : 0 < batchHeads) (hcount : 0 < count)
    (hkeys : 0 < keys) (hmask : mask.keys = keys ∧ mask.chunkRows = count)
    (hpos : 0 < mask.heads ∧ 0 < mask.queries)
    (hlaunch : P → batchHeads * count * keys ≤ LAUNCH_CAPACITY) :
    Gives P (attentionRows scores mask) fun _ => True := by
  have hprod : scores.dims.prod = batchHeads * count * keys := by rw [hdims]; simp [mul_assoc]
  refine Gives.bindEq (launchCount_gives ?_ (by rwa [hprod])) ?_
  · rw [hdims]
    simp [hbatch, hcount, hkeys]
  · refine (Gives.bailIf fun _ => ?_).imp fun _ _ => trivial
    rw [hprod, hmask.1, hmask.2, Nat.mul_div_cancel _ hkeys]
    have hrows := Nat.mul_pos hbatch hcount
    omega

/-- **The masked softmax of the scores of a chunk** gives each row the weights of its window, and
zeros to the rows of padding. -/
theorem softmax_gives {P : Prop} {arithmetic : ExactArithmetic R} {score : ℕ → ℕ → ℕ → R}
    (hfits : Fits prepared memberOffset batch queries keys) (hheads : 0 < heads) (hbatch : 0 < batch)
    (hcount : 0 < count) (hstart : start + count ≤ queries)
    (hlaunch : P → batch * heads * count * keys ≤ LAUNCH_CAPACITY)
    (hsize : P → queries ≤ USIZE_MAX ∧ memberOffset + batch ≤ USIZE_MAX) :
    Gives P
      (softmax arithmetic (Tensor.ofFn3 (batch * heads) count keys score) prepared
        { queries, keys, heads, queryStart := start, chunkRows := count, memberOffset })
      (· = Tensor.ofFn3 (batch * heads) count keys fun j i =>
        columnWeight arithmetic.exp prepared queries keys (memberOffset + j / heads) (start + i)
          (score j i)) := by
  have hkeys : 0 < keys := hfits.queries_pos.trans_le hfits.queries_le
  have hmembers : batch * heads / heads = batch := Nat.mul_div_cancel _ hheads
  have hrows : Gives P (attentionRows (Tensor.ofFn3 (batch * heads) count keys score)
      { queries, keys, heads, queryStart := start, chunkRows := count, memberOffset })
      fun _ => True :=
    attentionRows_gives rfl (Nat.mul_pos hbatch hheads) hcount hkeys ⟨rfl, rfl⟩
      ⟨hheads, hfits.queries_pos⟩ hlaunch
  refine Gives.bindEq (Gives.of_eq_ok rfl rfl) ?_
  refine (Gives.bailIf fun hP => ?_).bind fun _ _ => ?_
  · obtain ⟨hqueries, hlast⟩ := hsize hP
    have hlt := hfits.member_lt
    have hle := hfits.queries_le
    rw [hmembers, checkedAdd_of_le (hstart.trans hqueries), checkedAdd_of_le hlast]
    simp only [Option.all_some, decide_eq_true_eq, Nat.mul_mod_left, ne_eq, not_true, false_or]
    omega
  refine (Gives.bailIf fun _ => ?_).bind fun _ _ => ?_
  · rw [hmembers, List.any_eq_true]
    rintro ⟨member, hmember, hbad⟩
    obtain ⟨hfrom, hto⟩ := List.mem_range'_1.mp hmember
    obtain ⟨m, rfl⟩ := Nat.exists_eq_add_of_le hfrom
    have hm : m < batch := by omega
    have hqueries := hfits.le_queries m hm
    have hkeys := hfits.le_keys m hm
    have hbad : queries < memberLength prepared.logical.cuSeqlensQ (memberOffset + m) ∨
        keys < memberLength prepared.logical.cuSeqlensK (memberOffset + m) := of_decide_eq_true hbad
    omega
  refine hrows.bind fun _ _ => ?_
  have hplace : ∀ (row : ℕ) {column : ℕ}, column < keys →
      (row * keys + column) / keys = row ∧ (row * keys + column) % keys = column := by
    intro row column hcolumn
    rw [Nat.add_comm, Nat.add_mul_div_right _ _ hkeys, Nat.div_eq_of_lt hcolumn, Nat.zero_add,
      Nat.add_mul_mod_self_right, Nat.mod_eq_of_lt hcolumn]
    exact ⟨rfl, rfl⟩
  split
  · refine Gives.ok (Tensor.build_eq_ofFn3 fun j i c hj hi hc => ?_)
    obtain ⟨-, hpadding, hreal⟩ := maskedRow_eq score hfits hstart hj hi
    obtain ⟨hrow, hcolumn⟩ := hplace (j * count + i) hc
    rw [hrow, hcolumn, columnWeight]
    split
    · rename_i hlt
      exact softmaxRow_masked (hpadding hlt) c
    · rename_i hge
      have hm : j / heads < batch := (Nat.div_lt_iff_lt_mul hheads).mpr hj
      obtain ⟨hwindow, hlast⟩ := hfits.window hm (show start + i < queries by omega)
        (not_lt.mp hge)
      rw [hreal (not_lt.mp hge), softmaxRow_window (by omega) hc]
  · refine hrows.bind fun _ _ => Gives.ok (Tensor.build_eq_ofFn3 fun j i c hj hi hc => ?_)
    obtain ⟨hvalid, -, hreal⟩ := maskedRow_eq score hfits hstart hj hi
    obtain ⟨hrow, hcolumn⟩ := hplace (j * count + i) hc
    rw [hrow, hcolumn, columnWeight]
    by_cases hge : queryPadding prepared queries (memberOffset + j / heads) ≤ start + i
    · have hm : j / heads < batch := (Nat.div_lt_iff_lt_mul hheads).mpr hj
      obtain ⟨hwindow, hlast⟩ := hfits.window hm (show start + i < queries by omega) hge
      have hsome : ∃ value, some value ∈ windowRow keys
          (keyPadding prepared keys (memberOffset + j / heads))
          (rowPosition prepared queries (memberOffset + j / heads) (start + i)) fun position =>
            score j i (keyPadding prepared keys (memberOffset + j / heads) + position) := by
        refine ⟨_, List.mem_map.mpr ⟨keyPadding prepared keys (memberOffset + j / heads),
          List.mem_range.mpr (by omega), if_neg (by omega)⟩⟩
      rw [if_pos (hvalid.mpr hge), if_neg (not_lt.mpr hge), hreal hge, arithmetic.softmax_eq _ hsome,
        softmaxRow_window (by omega) hc]
    · rw [if_neg (fun htrue => hge (hvalid.mp htrue)), if_pos (not_le.mp hge)]

end Softmax

/-! ### Rectangular batches -/

/-- The attention of a row of a member, or zero for a row of padding. -/
def rowOutput (exp : R → R) (prepared : PreparedAttention) (queries keys member row : ℕ)
    (score value : ℕ → R) : R :=
  let padding := keyPadding prepared keys member
  if row < queryPadding prepared queries member then 0
  else
    causalAttention exp (rowPosition prepared queries member row)
      (fun position => score (padding + position)) fun position => value (padding + position)

/-- The weighted sum over all columns is the attention of the row. -/
theorem sum_columnWeight {exp : R → R} {prepared : PreparedAttention}
    {memberOffset batch queries keys m row : ℕ} (hfits : Fits prepared memberOffset batch queries keys)
    (hm : m < batch) (hrow : row < queries) (score value : ℕ → R) :
    ((List.range keys).map fun column =>
        columnWeight exp prepared queries keys (memberOffset + m) row score column * value column).sum =
      rowOutput exp prepared queries keys (memberOffset + m) row score value := by
  rw [rowOutput]
  split
  · rename_i hpadding
    refine List.sum_eq_zero fun entry hentry => ?_
    obtain ⟨column, -, rfl⟩ := List.mem_map.mp hentry
    rw [columnWeight, if_pos hpadding, zero_mul]
  · rename_i hreal
    obtain ⟨hwindow, hlast⟩ := hfits.window hm hrow (not_lt.mp hreal)
    refine sum_window (keyPadding prepared keys (memberOffset + m)) (by omega)
      (fun column _ houtside => ?_) fun position hposition => ?_
    · rw [columnWeight, if_neg hreal, if_pos houtside, zero_mul]
    · rw [columnWeight, if_neg hreal, if_neg (by omega), Nat.add_sub_cancel_left]

section Dense

variable {batch queries keys kvHeads group dim : ℕ}

omit [LinearOrder R] in
/-- The keys or values of a query head are those of its group. -/
theorem expandHeads_eq (hkvHeads : 0 < kvHeads) (f : ℕ → ℕ → ℕ → ℕ → R) :
    expandHeads (Tensor.ofFn4 batch keys kvHeads dim f) batch keys kvHeads (kvHeads * group) dim =
      .ok (Tensor.ofFn3 (batch * (kvHeads * group)) keys dim fun j t d =>
        f (j / (kvHeads * group)) t (j % (kvHeads * group) / group) d) := by
  have hexpand := Tensor.reshape_expand (a := batch) (b := keys) (c := kvHeads) (d := dim) f group
  have hsplit : expandHeads (Tensor.ofFn4 batch keys kvHeads dim f) batch keys kvHeads
        (kvHeads * group) dim =
      (((Tensor.ofFn4 batch keys kvHeads dim f).reshape [batch, keys, kvHeads, 1, dim] >>= fun t =>
        t.broadcastAs [batch, keys, kvHeads, group, dim] >>= fun t =>
          t.reshape [batch, keys, kvHeads * group, dim]) >>= fun t =>
        t.transpose >>= fun t => t.reshape [batch * (kvHeads * group), keys, dim]) := by
    rw [expandHeads, Nat.mul_div_cancel_left _ hkvHeads]
    simp only [bind_assoc]
  rw [hsplit, hexpand]
  exact Eq.trans (congrArg (· >>= fun t : Tensor R => t.reshape _) (Tensor.transpose_ofFn4 _))
    (Tensor.reshape_merge _)

omit [LinearOrder R] in
/-- The scores of a chunk: the rows of zeros are computed and dropped again. -/
theorem chunkScores_eq {batchHeads count : ℕ} (f g : ℕ → ℕ → ℕ → R) :
    chunkScores (Tensor.ofFn3 batchHeads count dim f) (Tensor.ofFn3 batchHeads dim keys g) batchHeads
        queries keys count dim =
      .ok (Tensor.ofFn3 batchHeads count keys fun j i c =>
        ((List.range dim).map fun d => f j i d * g j d c).sum) := by
  rw [chunkScores]
  split
  · rename_i hextra
    obtain ⟨extra, hrows⟩ := Nat.exists_eq_add_of_lt hextra
    have hcat : Tensor.cat [Tensor.ofFn3 batchHeads count dim f,
        Tensor.zeros [batchHeads, scoreRows queries keys count - count, dim]] 1 =
        .ok (Tensor.ofFn3 batchHeads (scoreRows queries keys count) dim fun j i d =>
          if i < count then f j i d else 0) := by
      have h := Tensor.cat1_ofFn3 (R := R) (a := batchHeads) (c := dim)
        [count, scoreRows queries keys count - count]
        (fun j i d => if i < count then f j i d else 0) (by simp)
      have hsum : [count, scoreRows queries keys count - count].sum = scoreRows queries keys count := by
        simp
        omega
      rw [hsum] at h
      rw [← h]
      refine congrArg (Tensor.cat · 1) ?_
      rw [tiles, tiles, tiles, List.map_cons, List.map_cons, List.map_nil, Tensor.zeros3]
      congr 1
      · refine Tensor.ofFn3_congr fun j i d _ hi _ => ?_
        rw [Nat.zero_add, if_pos hi]
      · congr 1
        refine Tensor.ofFn3_congr fun j i d _ hi _ => ?_
        rw [if_neg (by omega)]
    rw [hcat]
    show (Tensor.matmul _ _ >>= fun scores : Tensor R => scores.narrow 1 0 count) = _
    rw [Tensor.matmul_ofFn3]
    show Tensor.narrow _ 1 0 count = _
    rw [Tensor.narrow1_ofFn3 (by omega)]
    refine congrArg Except.ok (Tensor.ofFn3_congr fun j i c _ hi _ => ?_)
    simp only [Nat.zero_add, if_pos hi]
  · rw [Tensor.matmul_ofFn3]

/-- The score of a query and a key. -/
def score (scale : R) (dim : ℕ) (query key : ℕ → R) : R :=
  scale * ∑ d ∈ Finset.range dim, query d * key d

/-- Scaling the query and the key by the root of the scale scales the score. -/
theorem sum_scaled (arithmetic : ExactArithmetic R) {scale : R} (hscale : 0 < scale)
    (query key : ℕ → R) :
    ((List.range dim).map fun d =>
        query d * arithmetic.sqrt scale * (key d * arithmetic.sqrt scale)).sum =
      score scale dim query key := by
  rw [sum_map_range, score, Finset.mul_sum]
  refine Finset.sum_congr rfl fun d _ => ?_
  calc query d * arithmetic.sqrt scale * (key d * arithmetic.sqrt scale)
      = arithmetic.sqrt scale * arithmetic.sqrt scale * (query d * key d) := by ring
    _ = scale * (query d * key d) := by rw [arithmetic.sqrt_mul_self scale hscale]

/-- The row of a chunk that belongs to a query head of a member. -/
def headOutput (arithmetic : ExactArithmetic R) (prepared : PreparedAttention) (scale : R)
    (memberOffset queries keys heads group dim : ℕ) (fq fk fv : ℕ → ℕ → ℕ → ℕ → R) (j row d : ℕ) : R :=
  rowOutput arithmetic.exp prepared queries keys (memberOffset + j / heads) row
    (fun column => score scale dim (fq (j / heads) row (j % heads))
      (fk (j / heads) column (j % heads / group)))
    fun column => fv (j / heads) column (j % heads / group) d

/-- **A chunk of query rows.** -/
theorem chunk_gives {P : Prop} {arithmetic : ExactArithmetic R} {prepared : PreparedAttention}
    {memberOffset start count : ℕ} {scale : R} (fq fk fv : ℕ → ℕ → ℕ → ℕ → R)
    (hfits : Fits prepared memberOffset batch queries keys) (hbatch : 0 < batch)
    (hkvHeads : 0 < kvHeads) (hgroup : 0 < group) (hcount : 0 < count)
    (hstart : start + count ≤ queries) (hscale : 0 < scale)
    (hlaunch : P → batch * (kvHeads * group) * queries * keys ≤ LAUNCH_CAPACITY)
    (hsize : P → memberOffset + batch ≤ USIZE_MAX) :
    let heads := kvHeads * group
    Gives P
      (do
        let input ← (Tensor.ofFn3 (batch * heads) queries dim fun j i d =>
          fq (j / heads) i (j % heads) d * arithmetic.sqrt scale).narrow 1 start count
        let scores ← chunkScores input (Tensor.ofFn3 (batch * heads) dim keys fun j d c =>
          fk (j / heads) c (j % heads / group) d * arithmetic.sqrt scale) (batch * heads) queries keys
            count dim
        let probabilities ← softmax arithmetic scores prepared
          { queries, keys, heads, queryStart := start, chunkRows := count, memberOffset }
        probabilities.matmul (Tensor.ofFn3 (batch * heads) keys dim fun j c d =>
          fv (j / heads) c (j % heads / group) d))
      (· = Tensor.ofFn3 (batch * heads) count dim fun j i =>
        headOutput arithmetic prepared scale memberOffset queries keys heads group dim fq fk fv j
          (start + i)) := by
  intro heads
  have hheads : 0 < heads := Nat.mul_pos hkvHeads hgroup
  have hkeys : 0 < keys := hfits.queries_pos.trans_le hfits.queries_le
  have hchunkLaunch : P → batch * heads * count * keys ≤ LAUNCH_CAPACITY := fun hP =>
    (Nat.mul_le_mul_right _ (Nat.mul_le_mul_left _ (by omega))).trans (hlaunch hP)
  have hqueriesSize : P → queries ≤ USIZE_MAX := by
    intro hP
    refine le_trans ?_ ((hlaunch hP).trans LAUNCH_CAPACITY_le)
    rw [Nat.mul_right_comm]
    exact Nat.le_mul_of_pos_left _ (Nat.mul_pos (Nat.mul_pos hbatch hheads) hkeys)
  refine Gives.bindEq (Gives.of_eq_ok (Tensor.narrow1_ofFn3 hstart) rfl) ?_
  refine Gives.bindEq (Gives.of_eq_ok (chunkScores_eq _ _) rfl) ?_
  refine Gives.bindEq (softmax_gives hfits hheads hbatch hcount hstart hchunkLaunch
    fun hP => ⟨hqueriesSize hP, hsize hP⟩) ?_
  refine Gives.of_eq_ok (Tensor.matmul_ofFn3 _ _) (Tensor.ofFn3_congr fun j i d hj hi hd => ?_)
  have hm : j / heads < batch := (Nat.div_lt_iff_lt_mul hheads).mpr hj
  rw [sum_columnWeight hfits hm (by omega), headOutput]
  simp only [sum_scaled arithmetic hscale]

/-- **The attention of a rectangular batch.** Every row of a member gets the attention of its logical
position, with the keys and values of its query head's group; the rows of padding get zeros. -/
theorem dense_gives {P : Prop} {arithmetic : ExactArithmetic R} {prepared : PreparedAttention}
    {memberOffset chunk : ℕ} {scale : R} (fq fk fv : ℕ → ℕ → ℕ → ℕ → R)
    (hfits : Fits prepared memberOffset batch queries keys) (hbatch : 0 < batch)
    (hkvHeads : 0 < kvHeads) (hgroup : 0 < group) (hchunk : 0 < chunk) (hscale : 0 < scale)
    (hlaunch : P → batch * (kvHeads * group) * queries * keys ≤ LAUNCH_CAPACITY)
    (hsize : P → memberOffset + batch ≤ USIZE_MAX) :
    Gives P
      (dense arithmetic (Tensor.ofFn4 batch queries (kvHeads * group) dim fq)
        (Tensor.ofFn4 batch keys kvHeads dim fk) (Tensor.ofFn4 batch keys kvHeads dim fv) prepared scale
        memberOffset chunk)
      (· = Tensor.ofFn3 (batch * queries) (kvHeads * group) dim fun n h d =>
        rowOutput arithmetic.exp prepared queries keys (memberOffset + n / queries) (n % queries)
          (fun column => score scale dim (fq (n / queries) (n % queries) h)
            (fk (n / queries) column (h / group)))
          fun column => fv (n / queries) column (h / group) d) := by
  have hheads : 0 < kvHeads * group := Nat.mul_pos hkvHeads hgroup
  have hqueries := hfits.queries_pos
  refine Gives.bindEq (Gives.of_eq_ok rfl rfl) ?_
  refine Gives.bindEq (Gives.of_eq_ok rfl rfl) ?_
  refine Gives.bindEq (Gives.of_eq_ok (Tensor.transpose_ofFn4 fq) rfl) ?_
  refine Gives.bindEq (Gives.of_eq_ok (Tensor.reshape_merge _) rfl) ?_
  refine Gives.bindEq (Gives.of_eq_ok (expandHeads_eq hkvHeads fk) rfl) ?_
  refine Gives.bindEq (Gives.of_eq_ok (expandHeads_eq hkvHeads fv) rfl) ?_
  simp only [Tensor.scale_ofFn3]
  refine Gives.bindEq (Gives.of_eq_ok (Tensor.transpose_ofFn3 _) rfl) ?_
  obtain ⟨counts, hsum, hlength, htiles⟩ := range'_tiles queries hchunk
    (divCeil queries chunk) 0 (by rw [Nat.sub_zero, divCeil_eq hchunk])
  rw [Nat.sub_zero] at hsum
  let output := headOutput arithmetic prepared scale memberOffset queries keys (kvHeads * group) group
    dim fq fk fv
  refine Gives.bindEq (Gives.mapM (F := fun start => Tensor.ofFn3 (batch * (kvHeads * group))
    (min (queries - start) chunk) dim fun j i => output j (start + i)) fun start hmem => ?_) ?_
  · obtain ⟨i, hi, rfl⟩ := List.mem_range'.mp hmem
    have hlt : 0 + chunk * i < queries := by
      by_contra hge
      have := divCeil_le (show queries ≤ chunk * i by omega)
      omega
    exact chunk_gives fq fk fv hfits hbatch hkvHeads hgroup (by omega) (by omega) hscale hlaunch hsize
  have hcat : Tensor.cat ((List.range' 0 (divCeil queries chunk) chunk).map fun start =>
      Tensor.ofFn3 (batch * (kvHeads * group)) (min (queries - start) chunk) dim fun j i =>
        output j (start + i)) 1 =
      .ok (Tensor.ofFn3 (batch * (kvHeads * group)) queries dim output) := by
    have hne : counts ≠ [] := by
      rintro rfl
      simp at hsum
      omega
    have hparts := Tensor.cat1_ofFn3 (a := batch * (kvHeads * group)) (c := dim) counts output hne
    rw [← htiles, List.map_map, hsum] at hparts
    exact hparts
  refine Gives.bindEq (Gives.of_eq_ok hcat rfl) ?_
  refine Gives.bindEq (Gives.of_eq_ok (Tensor.reshape_split _) rfl) ?_
  refine Gives.bindEq (Gives.of_eq_ok (Tensor.transpose_ofFn4 _) rfl) ?_
  refine Gives.of_eq_ok (Tensor.reshape_merge _) (Tensor.ofFn3_congr fun n h d _ hh _ => ?_)
  have hdiv : (n / queries * (kvHeads * group) + h) / (kvHeads * group) = n / queries := by
    rw [Nat.add_comm, Nat.add_mul_div_right _ _ hheads, Nat.div_eq_of_lt hh, Nat.zero_add]
  have hmod : (n / queries * (kvHeads * group) + h) % (kvHeads * group) = h := by
    rw [Nat.add_comm, Nat.add_mul_mod_self_right, Nat.mod_eq_of_lt hh]
  show headOutput _ _ _ _ _ _ _ _ _ _ _ _ (n / queries * (kvHeads * group) + h) _ _ = _
  rw [headOutput, hdiv, hmod]

end Dense

end VllmOxide
