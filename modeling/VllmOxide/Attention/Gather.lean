import VllmOxide.Attention.Rows
import VllmOxide.Engine.BlockPool

/-!
# Keys and values of logical positions

The gather of a paged cache reads the entry of a logical position at the slot that its block table
assigns to it, the slot to which the position was written. Rectangular gathers put the positions of a
member at the end of its columns, after zeros.

## Main definitions

* `Covered`: the block tables cover the keys of their members within the cache.
* `cachedEntry`: the entry of the cache at a logical position.

## Main results

* `computeSlotMapping_eq_logicalSlot`: writing and reading agree on the slot of a position.
* `gatherMember_gives`, `gatherCache_gives`: the gathered entries.
-/

namespace VllmOxide

/-- The block tables have a row for each member, which covers its keys with blocks of the cache. -/
structure Covered (metadata : AttnMetadata) (members : List (UInt32 × UInt32))
    (numBlocks blockSize : ℕ) : Prop where
  length_eq : metadata.blockTable.length = members.length
  le_row : ∀ {m : ℕ} {member : UInt32 × UInt32} {row : List ℤ}, members[m]? = some member →
    metadata.blockTable[m]? = some row → member.2.toNat ≤ blockSize * row.length
  block_lt : ∀ row ∈ metadata.blockTable, ∀ block ∈ row, 0 ≤ block ∧ block < (numBlocks : ℤ)

/-- The block of a logical position. -/
def logicalBlock (blockSize : ℕ) (row : List ℤ) (position : ℕ) : ℕ :=
  (row.getD (position / blockSize) 0).toNat

/-- **The slot of a logical position is the one to which the position is written.** -/
theorem computeSlotMapping_eq_logicalSlot {pool : BlockPool} {seq : Sequence} {row : List ℤ}
    {position : ℕ} (hrow : row = seq.blockTable.map Int.ofNat)
    (hcovered : position < pool.blockSize * row.length) :
    pool.computeSlotMapping seq position 1 =
      [((logicalBlock pool.blockSize row position * pool.blockSize + position % pool.blockSize : ℕ) :
        ℤ)] := by
  subst hrow
  rw [List.length_map] at hcovered
  have hlt : position / pool.blockSize < seq.blockTable.length := by
    refine Nat.div_lt_of_lt_mul ?_
    exact hcovered
  simp only [BlockPool.computeSlotMapping, List.range_one, List.map_cons, List.map_nil, Nat.add_zero,
    List.getElem?_eq_getElem hlt]
  rw [logicalBlock, List.getD_eq_getElem?_getD, List.getElem?_map, List.getElem?_eq_getElem hlt]
  rfl

/-! ### The table -/

theorem getElem?_flatMap_rows {rows : List (List ℤ)} {width m j : ℕ} {row : List ℤ}
    (hwidth : ∀ row ∈ rows, row.length ≤ width) (hm : rows[m]? = some row) (hj : j < width) :
    (rows.flatMap fun row => row.map Int.toNat ++ List.replicate (width - row.length) 0)[
      m * width + j]? = some (row.getD j 0).toNat := by
  induction rows generalizing m with
  | nil => simp at hm
  | cons first rest ih =>
    have hfirst := hwidth first List.mem_cons_self
    rw [List.flatMap_cons]
    cases m with
    | zero =>
      obtain rfl : first = row := by simpa using hm
      rw [Nat.zero_mul, Nat.zero_add, List.getElem?_append_left (by simp; omega)]
      by_cases hlt : j < first.length
      · rw [List.getElem?_append_left (by simpa using hlt), List.getElem?_map,
          List.getElem?_eq_getElem hlt, List.getD_eq_getElem?_getD, List.getElem?_eq_getElem hlt]
        rfl
      · rw [List.getElem?_append_right (by simpa using hlt), List.length_map,
          List.getElem?_replicate, if_pos (by omega), List.getD_eq_getElem?_getD,
          List.getElem?_eq_none (by omega)]
        rfl
    | succ m =>
      rw [List.getElem?_append_right (by simp [Nat.succ_mul]; omega)]
      have hplace : (m + 1) * width + j -
          (first.map Int.toNat ++ List.replicate (width - first.length) 0).length = m * width + j := by
        rw [List.length_append, List.length_map, List.length_replicate, Nat.succ_mul]
        omega
      rw [hplace]
      exact ih (fun row hrow => hwidth row (List.mem_cons_of_mem _ hrow)) (by simpa using hm)

theorem length_flatMap_rows {rows : List (List ℤ)} {width : ℕ}
    (hwidth : ∀ row ∈ rows, row.length ≤ width) :
    (rows.flatMap fun row => row.map Int.toNat ++ List.replicate (width - row.length) 0).length =
      rows.length * width := by
  induction rows with
  | nil => simp
  | cons first rest ih =>
    have hfirst := hwidth first List.mem_cons_self
    rw [List.flatMap_cons, List.length_append,
      ih fun row hrow => hwidth row (List.mem_cons_of_mem _ hrow), List.length_append,
      List.length_map, List.length_replicate, List.length_cons, Nat.succ_mul]
    omega

theorem le_maxBlocks {rows : List (List ℤ)} {row : List ℤ} (h : row ∈ rows) :
    row.length ≤ maxBlocks rows := by
  have hfold : ∀ (rest : List (List ℤ)) (best : ℕ),
      best ≤ rest.foldl (fun best row => max best row.length) best ∧
        ∀ row ∈ rest, row.length ≤ rest.foldl (fun best row => max best row.length) best := by
    intro rest
    induction rest with
    | nil => simp
    | cons first rest ih =>
      intro best
      obtain ⟨hbest, hrest⟩ := ih (max best first.length)
      refine ⟨(le_max_left _ _).trans hbest, ?_⟩
      rintro row (_ | ⟨_, hrow⟩)
      · exact (le_max_right _ _).trans hbest
      · exact hrest row hrow
  exact (hfold rows 0).2 row h

/-- The table of a prepared form. -/
theorem PreparedAttention.LayoutOf.exists_table {metadata : AttnMetadata}
    {members : List (UInt32 × UInt32)} {prepared : PreparedAttention} {numBlocks blockSize : ℕ}
    (h : prepared.LayoutOf metadata) (batch : Batch metadata members)
    (covered : Covered metadata members numBlocks blockSize) :
    ∃ table, prepared.blockTableTensor = .ok table ∧ 0 < table.width ∧
      (∀ row ∈ metadata.blockTable, row.length ≤ table.width) ∧
      table.flat.length / table.width = members.length ∧
      ∀ {m j : ℕ} {row : List ℤ}, metadata.blockTable[m]? = some row → j < table.width →
        table.flat.getD (m * table.width + j) 0 = (row.getD j 0).toNat := by
  have hne : metadata.blockTable ≠ [] := by
    intro hnil
    have hlength := covered.length_eq
    have hpos := batch.length_pos
    rw [hnil, List.length_nil] at hlength
    omega
  have hwidth : maxBlocks metadata.blockTable ≠ 0 := by
    intro hzero
    have hm : 0 < members.length := batch.length_pos
    have hm' : 0 < metadata.blockTable.length := by rw [covered.length_eq]; exact hm
    have hle := covered.le_row (List.getElem?_eq_getElem hm) (List.getElem?_eq_getElem hm')
    have hrow := le_maxBlocks (List.getElem_mem hm')
    have hcausal := batch.causal _ (List.getElem_mem hm)
    rw [hzero, Nat.le_zero] at hrow
    rw [hrow] at hle
    omega
  have htable := h.blockTable
  rw [prepareBlockTable] at htable
  rw [if_neg hne, if_neg hwidth, if_neg] at htable
  · refine ⟨_, by rw [PreparedAttention.blockTableTensor, ← Except.ok.inj htable],
      Nat.pos_of_ne_zero hwidth, fun row hrow => le_maxBlocks hrow, ?_, fun {m j row} hm hj => ?_⟩
    · show (metadata.blockTable.flatMap _).length / maxBlocks metadata.blockTable = _
      rw [length_flatMap_rows fun row hrow => le_maxBlocks hrow, Nat.mul_div_cancel _
        (Nat.pos_of_ne_zero hwidth), covered.length_eq]
    · rw [List.getD_eq_getElem?_getD]
      show ((metadata.blockTable.flatMap _)[m * maxBlocks metadata.blockTable + j]?).getD 0 = _
      rw [getElem?_flatMap_rows (fun row hrow => le_maxBlocks hrow) hm hj]
      rfl
  · rw [List.any_eq_true]
    rintro ⟨row, hrow, hbad⟩
    obtain ⟨block, hblock, hneg⟩ := List.any_eq_true.mp hbad
    have := (covered.block_lt row hrow block hblock).1
    have := of_decide_eq_true hneg
    omega

/-! ### Gathered entries -/

section Gathered

variable {R : Type} [Zero R] {P : Prop} {metadata : AttnMetadata}
  {members : List (UInt32 × UInt32)} {prepared : PreparedAttention}
  {numBlocks blockSize kvHeads dim : ℕ}

/-- The entry of the cache at a logical position. -/
def cachedEntry (blockSize : ℕ) (row : List ℤ) (cache : ℕ → ℕ → ℕ → ℕ → R) (position h d : ℕ) : R :=
  cache (logicalBlock blockSize row position) (position % blockSize) h d

/-- The place of an element of a token. -/
theorem place_div {n h d kvHeads dim : ℕ} (hh : h < kvHeads) (hd : d < dim) :
    ((n * kvHeads + h) * dim + d) / (kvHeads * dim) = n ∧
      ((n * kvHeads + h) * dim + d) % (kvHeads * dim) = h * dim + d := by
  have hlt : h * dim + d < kvHeads * dim := by
    calc h * dim + d < (h + 1) * dim := by rw [Nat.succ_mul]; omega
      _ ≤ kvHeads * dim := Nat.mul_le_mul_right _ hh
  have hplace : (n * kvHeads + h) * dim + d = (h * dim + d) + n * (kvHeads * dim) := by ring
  rw [hplace, Nat.add_mul_div_right _ _ (by omega), Nat.div_eq_of_lt hlt, Nat.zero_add,
    Nat.add_mul_mod_self_right, Nat.mod_eq_of_lt hlt]
  exact ⟨rfl, rfl⟩

/-- An element of a gather. -/
theorem kernel_eq {cache : ℕ → ℕ → ℕ → ℕ → R} {cuK : List UInt32} {table : List ℕ}
    {shape : CacheGather} (hsize : shape.numBlocks = numBlocks ∧ shape.blockSize = blockSize ∧
      shape.kvHeads = kvHeads ∧ shape.headDim = dim) (hblock : 0 < blockSize) {b c h d : ℕ}
    (hc : c < shape.keys) (hh : h < kvHeads) (hd : d < dim)
    (hkeys : memberLength cuK (shape.memberOffset + b) ≤ shape.keys)
    {row : List ℤ} (hrow : ∀ position < memberLength cuK (shape.memberOffset + b),
      shape.block table (shape.memberOffset + b) position = logicalBlock blockSize row position ∧
        logicalBlock blockSize row position < numBlocks) :
    shape.kernel (Tensor.ofFn4 numBlocks blockSize kvHeads dim cache) cuK table
        (((b * shape.keys + c) * kvHeads + h) * dim + d) =
      .ok (if c < shape.keys - memberLength cuK (shape.memberOffset + b) then 0
        else cachedEntry blockSize row cache
          (c - (shape.keys - memberLength cuK (shape.memberOffset + b))) h d) := by
  obtain ⟨hnumBlocks, hblockSize, hkvHeads, hheadDim⟩ := hsize
  have hwidth : shape.width = kvHeads * dim := by rw [CacheGather.width, hkvHeads, hheadDim]
  obtain ⟨hdiv, hmod⟩ := place_div (n := b * shape.keys + c) hh hd
  have htoken : (b * shape.keys + c) / shape.keys = b ∧ (b * shape.keys + c) % shape.keys = c := by
    rw [Nat.add_comm, Nat.add_mul_div_right _ _ (by omega), Nat.div_eq_of_lt hc, Nat.zero_add,
      Nat.add_mul_mod_self_right, Nat.mod_eq_of_lt hc]
    exact ⟨rfl, rfl⟩
  have hplace : shape.place (((b * shape.keys + c) * kvHeads + h) * dim + d) =
      (shape.memberOffset + b, c) := by
    rw [CacheGather.place, hwidth, hdiv, htoken.1, htoken.2]
  have hpadding : shape.padding cuK (shape.memberOffset + b) =
      shape.keys - memberLength cuK (shape.memberOffset + b) := sizeSub_of_le hkeys
  rw [CacheGather.kernel, hplace]
  dsimp only
  rw [hpadding, hwidth, hmod, hnumBlocks, hblockSize]
  split
  · rfl
  · rename_i hreal
    obtain ⟨hlogical, hlt⟩ := hrow (c - (shape.keys -
      memberLength cuK (shape.memberOffset + b))) (by omega)
    rw [hlogical, if_neg (not_le.mpr hlt)]
    refine congrArg Except.ok ?_
    have hentry := Tensor.entry_ofFn4 (f := cache) hlt
      (Nat.mod_lt (c - (shape.keys - memberLength cuK (shape.memberOffset + b))) hblock) hh hd
    rw [cachedEntry, ← hentry]
    refine congrArg (Tensor.entry _) ?_
    ring

/-- The geometry that the cache was prepared for is the one it has. -/
def CacheMatches (prepared : PreparedAttention) (shape : List ℕ) : Prop :=
  ∀ expected, prepared.cacheShape = some expected → expected = shape

theorem validateCache_gives (h : prepared.LayoutOf metadata) (batch : Batch metadata members)
    (covered : Covered metadata members numBlocks blockSize)
    (hpos : 0 < numBlocks ∧ 0 < blockSize ∧ 0 < kvHeads ∧ 0 < dim)
    (hmatches : P → CacheMatches prepared [numBlocks, blockSize, kvHeads, dim]) :
    Gives P (prepared.validateCache [numBlocks, blockSize, kvHeads, dim]) fun _ => True := by
  rw [PreparedAttention.validateCache]
  refine Gives.ite_error (fun _ => ?_) fun _ => ?_
  · simp
    omega
  split
  · rename_i expected hexpected
    refine Gives.ite_error (fun hP hne => ?_) fun _ => Gives.ok trivial
    exact hne (hmatches hP expected hexpected).symm
  · refine Gives.ite_error (fun _ hbad => ?_) fun _ => Gives.ok trivial
    rw [h.logical] at hbad
    obtain ⟨⟨row, m⟩, hmem, hbad⟩ := List.any_eq_true.mp hbad
    have hrow : metadata.blockTable[m]? = some row := List.mem_zipIdx_iff_getElem?.mp hmem
    have hlt := (List.getElem?_eq_some_iff.mp hrow).1
    rw [covered.length_eq] at hlt
    obtain ⟨member, hmember⟩ : ∃ member, members[m]? = some member := ⟨_, List.getElem?_eq_getElem hlt⟩
    rcases Bool.or_eq_true_iff.mp hbad with hshort | hblocks
    · have hle := divCeil_le (covered.le_row hmember hrow)
      have hshort : row.length < divCeil (memberLength metadata.cuSeqlensK m) blockSize :=
        of_decide_eq_true hshort
      rw [batch.memberLength_k hmember] at hshort
      omega
    · obtain ⟨block, hblock, hrange⟩ := List.any_eq_true.mp hblocks
      have hmem := covered.block_lt row (List.mem_of_getElem? hrow) block hblock
      have hrange : block < 0 ∨ (numBlocks : ℤ) ≤ block := of_decide_eq_true hrange
      omega

/-- **The gather of some members**: zeros in the columns of padding, and the entries of the logical
positions after them. -/
theorem gather_gives (h : prepared.LayoutOf metadata) (batch : Batch metadata members)
    (covered : Covered metadata members numBlocks blockSize)
    (hpos : 0 < numBlocks ∧ 0 < blockSize ∧ 0 < kvHeads ∧ 0 < dim)
    (hmatches : P → CacheMatches prepared [numBlocks, blockSize, kvHeads, dim])
    {cache : ℕ → ℕ → ℕ → ℕ → R} {selected : Option ℕ} {count keys first : ℕ}
    (hextent : gatherExtent metadata members.length selected = .ok (count, keys, first))
    (hcount : 0 < count) (hkeys : 0 < keys) (hmembers : first + count ≤ members.length)
    (hle : ∀ m member, first ≤ m → m < first + count → members[m]? = some member →
      member.2.toNat ≤ keys)
    (hlaunch : P → [count, keys, kvHeads, dim].prod ≤ LAUNCH_CAPACITY) :
    Gives P (gather (Tensor.ofFn4 numBlocks blockSize kvHeads dim cache) prepared selected)
      (· = Tensor.ofFn4 count keys kvHeads dim fun b c h d =>
        if c < keyPadding prepared keys (first + b) then 0
        else cachedEntry blockSize (metadata.blockTable.getD (first + b) []) cache
          (c - keyPadding prepared keys (first + b)) h d) := by
  obtain ⟨table, htable, hwidth, hwide, hbatch, hentry⟩ := h.exists_table batch covered
  refine Gives.bindEq (Gives.of_eq_ok rfl rfl) ?_
  refine (validateCache_gives h batch covered hpos hmatches).bind fun _ _ => ?_
  refine Gives.bindEq (Gives.of_eq_ok htable rfl) ?_
  rw [hbatch, h.logical]
  refine Gives.bindEq (Gives.of_eq_ok hextent rfl) ?_
  refine Gives.bindEq (launchCount_gives (by simp; omega) hlaunch) ?_
  refine (Gives.bailIf fun _ => ?_).bind fun _ _ => ?_
  · have hprod : 0 < [count, keys, kvHeads, dim].prod :=
      List.prod_pos (by simp; omega)
    omega
  let gathered := Tensor.ofFn4 count keys kvHeads dim fun b c h d =>
    if c < keyPadding prepared keys (first + b) then 0
    else cachedEntry blockSize (metadata.blockTable.getD (first + b) []) cache
      (c - keyPadding prepared keys (first + b)) h d
  refine Gives.bindEq (Gives.of_eq_ok (mapM_eq_ok (F := gathered.entry) fun n hn => ?_) rfl) ?_
  · obtain ⟨b, c, head, d, hb, hc, hhead, hd, rfl⟩ := Tensor.exists_place4 (List.mem_range.mp hn)
    have hm : first + b < members.length := by omega
    obtain ⟨member, hmember⟩ : ∃ member, members[first + b]? = some member :=
      ⟨_, List.getElem?_eq_getElem hm⟩
    have hm' : first + b < metadata.blockTable.length := by rw [covered.length_eq]; exact hm
    have hrow := List.getElem?_eq_getElem hm'
    have hrowD : metadata.blockTable.getD (first + b) [] = metadata.blockTable[first + b] := by
      rw [List.getD_eq_getElem?_getD, hrow, Option.getD_some]
    have hlength := batch.memberLength_k hmember
    rw [Tensor.entry_ofFn4 hb hc hhead hd, keyPadding, h.logical]
    refine kernel_eq ⟨rfl, rfl, rfl, rfl⟩ hpos.2.1 hc hhead hd ?_ fun position hposition => ?_
    · show memberLength metadata.cuSeqlensK (first + b) ≤ keys
      rw [hlength]
      exact hle _ _ (Nat.le_add_right _ _) (by omega) hmember
    · have hposition : position < member.2.toNat := by
        rw [← hlength]
        exact hposition
      have hcovers := covered.le_row hmember hrow
      have hindex : position / blockSize < (metadata.blockTable[first + b]).length :=
        Nat.div_lt_of_lt_mul (by omega)
      have hblock : logicalBlock blockSize (metadata.blockTable.getD (first + b) []) position <
          numBlocks := by
        have hmem := covered.block_lt _ (List.getElem_mem hm') _ (List.getElem_mem hindex)
        rw [logicalBlock, hrowD, List.getD_eq_getElem?_getD, List.getElem?_eq_getElem hindex,
          Option.getD_some]
        omega
      refine ⟨?_, hblock⟩
      show table.flat.getD ((first + b) * table.width + position / blockSize) 0 = _
      rw [hentry hrow (hindex.trans_le (hwide _ (List.getElem_mem hm'))), logicalBlock, hrowD]
  · refine Gives.ok (Tensor.build_eq_ofFn4 fun b c head d hb hc hhead hd => ?_)
    have hplace : ((b * keys + c) * kvHeads + head) * dim + d < [count, keys, kvHeads, dim].prod := by
      have hlt := (show InBounds [count, keys, kvHeads, dim] [b, c, head, d] by
        simp [hb, hc, hhead, hd]).offset_lt
      have heq : offset [count, keys, kvHeads, dim] [b, c, head, d] =
          ((b * keys + c) * kvHeads + head) * dim + d := by
        simp only [offset, List.prod_cons, List.prod_nil, Nat.mul_one, Nat.add_zero]
        ring
      rwa [heq] at hlt
    rw [List.getD_eq_getElem?_getD, List.getElem?_map, List.getElem?_range hplace]
    exact Tensor.entry_ofFn4 hb hc hhead hd

/-- **The keys or values of one member.** -/
theorem gatherMember_gives (h : prepared.LayoutOf metadata) (batch : Batch metadata members)
    (covered : Covered metadata members numBlocks blockSize)
    (hpos : 0 < numBlocks ∧ 0 < blockSize ∧ 0 < kvHeads ∧ 0 < dim)
    (hmatches : P → CacheMatches prepared [numBlocks, blockSize, kvHeads, dim])
    {cache : ℕ → ℕ → ℕ → ℕ → R} {m : ℕ} {member : UInt32 × UInt32} (hm : members[m]? = some member)
    (hlaunch : P → [1, member.2.toNat, kvHeads, dim].prod ≤ LAUNCH_CAPACITY) :
    Gives P (gatherMember (Tensor.ofFn4 numBlocks blockSize kvHeads dim cache) prepared m)
      (· = Tensor.ofFn3 member.2.toNat kvHeads dim
        (cachedEntry blockSize (metadata.blockTable.getD m []) cache)) := by
  have hlt := (List.getElem?_eq_some_iff.mp hm).1
  have hcausal := batch.causal member (List.mem_of_getElem? hm)
  have hextent : gatherExtent metadata members.length (some m) = .ok (1, member.2.toNat, m) := by
    rw [gatherExtent, if_neg (by omega), batch.memberLength_k hm]
  refine Gives.bindEq (gather_gives h batch covered hpos hmatches hextent Nat.one_pos (by omega) hlt
    (fun m' member' hge hlt' hm' => ?_) hlaunch) ?_
  · obtain rfl : m' = m := by omega
    rw [hm] at hm'
    cases hm'
    exact le_refl _
  · refine Gives.of_eq_ok (Tensor.reshape_squeeze _) (Tensor.ofFn3_congr fun position h' d hp _ _ => ?_)
    rw [Nat.add_zero, keyPadding, h.logical, batch.memberLength_k hm, Nat.sub_self,
      if_neg (Nat.not_lt_zero _), Nat.sub_zero]

/-- **The keys or values of the whole batch**, each member at the end of its columns. -/
theorem gatherCache_gives (h : prepared.LayoutOf metadata) (batch : Batch metadata members)
    (covered : Covered metadata members numBlocks blockSize)
    (hpos : 0 < numBlocks ∧ 0 < blockSize ∧ 0 < kvHeads ∧ 0 < dim)
    (hmatches : P → CacheMatches prepared [numBlocks, blockSize, kvHeads, dim])
    {cache : ℕ → ℕ → ℕ → ℕ → R}
    (hlaunch : P → [members.length, metadata.maxSeqlenK, kvHeads, dim].prod ≤ LAUNCH_CAPACITY) :
    Gives P (gatherCache (Tensor.ofFn4 numBlocks blockSize kvHeads dim cache) prepared)
      (· = Tensor.ofFn4 members.length metadata.maxSeqlenK kvHeads dim fun m c h d =>
        if c < keyPadding prepared metadata.maxSeqlenK m then 0
        else cachedEntry blockSize (metadata.blockTable.getD m []) cache
          (c - keyPadding prepared metadata.maxSeqlenK m) h d) := by
  have hkeys : 0 < metadata.maxSeqlenK :=
    batch.maxSeqlenQ_pos.trans_le (batch.built.max_le_max batch.causal batch.nonempty)
  refine (gather_gives h batch covered hpos hmatches rfl batch.length_pos hkeys
    (by omega) (fun m member _ _ hm => ?_) hlaunch).imp fun out hout => ?_
  · exact batch.built.describes.le_maxSeqlenK member (List.mem_of_getElem? hm)
  · rw [hout]
    simp only [Nat.zero_add]

end Gathered

end VllmOxide
