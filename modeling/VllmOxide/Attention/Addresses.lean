import VllmOxide.Attention.Budget
import VllmOxide.Attention.Gather

/-!
# The addresses of accepted metadata

The kernels index the cache, the block table and the cumulative lengths without checks of their own.
Here their index expressions are held against what the preparation and the launches have checked
before: all of them stay inside, but for one. The kernel that writes the cache skips the slot `-1`
only, whereas the preparation lets every negative slot pass.

## Main definitions

* `cacheWrites`: the addresses to which a token is written.
* `gatherLaunch`: the checks before a gather.
* `SlotsInside`, `CacheGather.ReadsInside`, `RowsInside`, `AttentionMask.Subtracts`: the index
  expressions of the kernels stay inside.
* `AddressesCache`: all of them.

## Main results

* `SlotsInside.of_mem_cacheWrites`: slots that are inside are written inside.
* `PreparedAttention.addressesCache_iff`: accepted metadata address only the cache exactly if no slot
  is below the sentinel.
-/

namespace VllmOxide

/-! ### The kernels and their launches -/

/-- `reshape_and_cache_kernel`: the addresses of the cache to which the given number of elements of a
token is written, relative to the beginning of the cache. -/
def cacheWrites (slotMapping : List ℤ) (width token : ℕ) : List ℤ :=
  let slot := slotMapping.getD token 0
  if slot = -1 then [] else (List.range width).map fun d : ℕ => slot * width + d

/-- The geometry and the table of a gather, after its checks. -/
def gatherLaunch (dims : List ℕ) (prepared : PreparedAttention) (member : Option ℕ) :
    Except String (CacheGather × BlockTableTensor) :=
  match dims with
  | [numBlocks, blockSize, kvHeads, headDim] => do
    prepared.validateCache dims
    let table ← prepared.blockTableTensor
    let (batch, keys, memberOffset) ←
      gatherExtent prepared.logical (table.flat.length / table.width) member
    return ({ batch, keys, kvHeads, headDim, blockSize, tableWidth := table.width, numBlocks,
              memberOffset }, table)
  | _ => .error "unexpected rank"

/-- The number of elements of a gather. -/
def CacheGather.count (shape : CacheGather) : ℕ :=
  shape.batch * shape.keys * shape.width

/-! ### Staying inside -/

/-- Every slot that the cache is written to is one of the cache. -/
def SlotsInside (slotMapping : List ℤ) (capacity : ℕ) : Prop :=
  ∀ slot ∈ slotMapping, slot ≠ -1 → 0 ≤ slot ∧ slot < (capacity : ℤ)

/-- No subtraction for an element of a gather goes below zero, and if the element is not padding, the
cell of the block table that it reads is one of the row of its member, and the slot that it reads is
one of the cache. -/
structure CacheGather.ReadsInside (shape : CacheGather) (cuK : List UInt32)
    (table : BlockTableTensor) (rows : List (List ℤ)) (index : ℕ) : Prop where
  member_lt : (shape.place index).1 + 1 < cuK.length
  monotone : cuK.getD (shape.place index).1 0 ≤ cuK.getD ((shape.place index).1 + 1) 0
  length_le : memberLength cuK (shape.place index).1 ≤ shape.keys
  inside : shape.padding cuK (shape.place index).1 ≤ (shape.place index).2 →
    ∃ row block,
      rows[(shape.place index).1]? = some row ∧
      row[((shape.place index).2 - shape.padding cuK (shape.place index).1) / shape.blockSize]? =
        some (Int.ofNat block) ∧
      row.length ≤ shape.tableWidth ∧
      table.flat[(shape.place index).1 * shape.tableWidth +
        ((shape.place index).2 - shape.padding cuK (shape.place index).1) / shape.blockSize]? =
          some block ∧
      block < shape.numBlocks ∧
      block * shape.blockSize +
          ((shape.place index).2 - shape.padding cuK (shape.place index).1) % shape.blockSize <
        shape.numBlocks * shape.blockSize

/-- The rows of the real queries increase within the padded batch, and the rows of the members are
within the rows of the tokens. -/
structure RowsInside (prepared : PreparedAttention) (metadata : AttnMetadata) : Prop where
  increasing : ∀ rows, prepared.realRows = some rows → rows.Pairwise (· < ·)
  row_lt : ∀ rows, prepared.realRows = some rows → ∀ row ∈ rows,
    row < (metadata.cuSeqlensQ.length - 1) * metadata.maxSeqlenQ
  member_le : ∀ pair ∈ windows metadata.cuSeqlensQ,
    pair.1 ≤ pair.2 ∧ pair.2.toNat ≤ metadata.slotMapping.length ∧
      (pair.2 - pair.1).toNat ≤ metadata.maxSeqlenQ

/-- No subtraction for a row of masked scores goes below zero. -/
structure AttentionMask.Subtracts (mask : AttentionMask) (cuQ cuK : List UInt32) (row : ℕ) :
    Prop where
  member_lt : mask.member row + 1 < cuQ.length ∧ mask.member row + 1 < cuK.length
  monotone : cuQ.getD (mask.member row) 0 ≤ cuQ.getD (mask.member row + 1) 0 ∧
    cuK.getD (mask.member row) 0 ≤ cuK.getD (mask.member row + 1) 0
  queries_le : memberLength cuQ (mask.member row) ≤ mask.queries
  keys_le : memberLength cuK (mask.member row) ≤ mask.keys
  causal : mask.queries ≤ mask.keys

/-- Everything that the kernels address for some prepared metadata is inside. -/
structure AddressesCache (prepared : PreparedAttention) (metadata : AttnMetadata)
    (limits : MathLimits) : Prop where
  slots : SlotsInside metadata.slotMapping (limits.numBlocks * limits.blockSize)
  gather : ∀ dims member shape table, gatherLaunch dims prepared member = .ok (shape, table) →
    shape.numBlocks = limits.numBlocks ∧ shape.blockSize = limits.blockSize ∧
      ∀ index < shape.count,
        shape.ReadsInside metadata.cuSeqlensK table metadata.blockTable index
  rows : RowsInside prepared metadata
  softmax : ∀ (R : Type) [Field R] [LinearOrder R] (arithmetic : ExactArithmetic R)
    (scores output : Tensor R) (mask : AttentionMask),
    VllmOxide.softmax arithmetic scores prepared mask = .ok output →
      ∀ row < scores.dims.prod / mask.keys,
        mask.Subtracts metadata.cuSeqlensQ metadata.cuSeqlensK row

/-- Slots that are inside are written inside the cache. -/
theorem SlotsInside.of_mem_cacheWrites {slotMapping : List ℤ} {capacity width token : ℕ} {address : ℤ}
    (h : SlotsInside slotMapping capacity) (htoken : token < slotMapping.length)
    (haddress : address ∈ cacheWrites slotMapping width token) :
    0 ≤ address ∧ address < (capacity * width : ℕ) := by
  have hslot : slotMapping.getD token 0 ∈ slotMapping := by
    rw [List.getD_eq_getElem?_getD, List.getElem?_eq_getElem htoken]
    exact List.getElem_mem htoken
  rw [cacheWrites] at haddress
  split at haddress
  · cases haddress
  · rename_i hwritten
    obtain ⟨hnonneg, hlt⟩ := h _ hslot hwritten
    obtain ⟨d, hd, rfl⟩ := List.mem_map.mp haddress
    have hd := List.mem_range.mp hd
    obtain ⟨slot, hvalue⟩ := Int.eq_ofNat_of_zero_le hnonneg
    rw [hvalue] at hlt ⊢
    have hnext : (slot + 1) * width ≤ capacity * width :=
      Nat.mul_le_mul_right _ (by exact_mod_cast hlt)
    rw [Nat.succ_mul] at hnext
    constructor
    · positivity
    · norm_cast
      omega

/-- **A gather** is its checks, its launch, and its kernel on every element. -/
theorem gather_eq {R : Type} [Zero R] (cache : Tensor R) (prepared : PreparedAttention)
    (member : Option ℕ) :
    gather cache prepared member = do
      let (shape, table) ← gatherLaunch cache.dims prepared member
      let dims := [shape.batch, shape.keys, shape.kvHeads, shape.headDim]
      let count ← launchCount dims
      bailIf (count = 0 ∨ shape.blockSize = 0 ∨ table.width = 0 ∨ shape.numBlocks = 0)
        "attention gather CUDA status 1"
      let data ← (List.range count).mapM
        (shape.kernel cache prepared.logical.cuSeqlensK table.flat)
      return .build dims fun index => data.getD index 0 := by
  obtain ⟨dims, data, hdata⟩ := cache
  rcases dims with _ | ⟨numBlocks, _ | ⟨blockSize, _ | ⟨kvHeads, _ | ⟨headDim, _ | ⟨_, _⟩⟩⟩⟩⟩
  case cons.cons.cons.cons.nil =>
    simp only [gather, gatherLaunch, Tensor.dims4, bind_assoc, pure_bind]
    rfl
  all_goals rfl

/-! ### Members -/

theorem mem_windows {cuSeqlens : List UInt32} {member : ℕ} (h : member + 1 < cuSeqlens.length) :
    (cuSeqlens.getD member 0, cuSeqlens.getD (member + 1) 0) ∈ windows cuSeqlens := by
  rw [windows_eq]
  exact List.mem_map_of_mem (List.mem_range.mpr (by omega))

theorem getElem?_memberLengths {cuSeqlens : List UInt32} {member : ℕ}
    (h : member + 1 < cuSeqlens.length) :
    (memberLengths cuSeqlens)[member]? =
      some (cuSeqlens.getD (member + 1) 0 - cuSeqlens.getD member 0) := by
  rw [memberLengths, windows_eq, List.getElem?_map, List.getElem?_map,
    List.getElem?_range (by omega)]
  rfl

theorem exists_memberLength {cuSeqlens : List UInt32} {member : ℕ}
    (h : member + 1 < cuSeqlens.length) :
    ∃ length ∈ memberLengths cuSeqlens, length.toNat = memberLength cuSeqlens member :=
  ⟨_, List.mem_map_of_mem (mem_windows h), rfl⟩

/-- Monotone cumulative lengths do not exceed the last one. -/
theorem le_getLast_of_windows {cuSeqlens : List UInt32}
    (h : ∀ pair ∈ windows cuSeqlens, pair.1 ≤ pair.2) :
    ∀ x ∈ cuSeqlens, x ≤ cuSeqlens.getLast?.getD 0 := by
  induction cuSeqlens with
  | nil =>
    intro x hx
    cases hx
  | cons first rest ih =>
    cases rest with
    | nil =>
      intro x hx
      rw [List.mem_singleton.mp hx]
      exact UInt32.le_refl _
    | cons second rest =>
      have hrest := ih fun pair hpair => h pair (List.mem_cons_of_mem _ hpair)
      intro x hx
      rw [List.getLast?_cons_cons]
      rcases List.mem_cons.mp hx with rfl | hx
      · exact UInt32.le_trans (h (x, second) List.mem_cons_self) (hrest second List.mem_cons_self)
      · exact hrest x hx

/-- The real rows increase, each within the part of its member. -/
theorem realRowIndices_inside {maxSeqlenQ : ℕ} :
    ∀ {counts : List UInt32} (member : ℕ), (∀ count ∈ counts, count.toNat ≤ maxSeqlenQ) →
      (PreparedAttention.realRowIndices maxSeqlenQ member counts).Pairwise (· < ·) ∧
        ∀ row ∈ PreparedAttention.realRowIndices maxSeqlenQ member counts,
          member * maxSeqlenQ ≤ row ∧ row < (member + counts.length) * maxSeqlenQ := by
  intro counts
  induction counts with
  | nil =>
    intro member _
    exact ⟨.nil, fun row hrow => nomatch hrow⟩
  | cons count counts ih =>
    intro member hle
    obtain ⟨hpairwise, hrest⟩ := ih (member + 1)
      fun count' hcount' => hle count' (List.mem_cons_of_mem _ hcount')
    have hcount := hle count List.mem_cons_self
    have hpart : (member + 1) * maxSeqlenQ = member * maxSeqlenQ + maxSeqlenQ := Nat.succ_mul _ _
    have hfirst : ∀ row ∈ (List.range count.toNat).map
        (fun row => member * maxSeqlenQ + maxSeqlenQ - count.toNat + row),
        member * maxSeqlenQ ≤ row ∧ row < (member + 1) * maxSeqlenQ := by
      intro row hrow
      obtain ⟨i, hi, rfl⟩ := List.mem_map.mp hrow
      have hi := List.mem_range.mp hi
      omega
    have hend : (member + 1) * maxSeqlenQ ≤ (member + (count :: counts).length) * maxSeqlenQ :=
      Nat.mul_le_mul_right _ (by rw [List.length_cons]; omega)
    rw [PreparedAttention.realRowIndices]
    refine ⟨List.pairwise_append.mpr ⟨?_, hpairwise, fun row hrow row' hrow' => ?_⟩,
      fun row hrow => ?_⟩
    · refine List.pairwise_map.mpr (List.pairwise_lt_range.imp fun hlt => ?_)
      omega
    · exact (hfirst row hrow).2.trans_le (hrest row' hrow').1
    · rcases List.mem_append.mp hrow with hrow | hrow
      · exact ⟨(hfirst row hrow).1, (hfirst row hrow).2.trans_le hend⟩
      · obtain ⟨hge, hlt⟩ := hrest row hrow
        refine ⟨by omega, ?_⟩
        rw [List.length_cons]
        rwa [Nat.add_assoc, Nat.add_comm 1] at hlt

/-! ### What is checked -/

/-- What the bounds checks of the planner accept. -/
theorem MathLimits.of_checkBounds {limits : MathLimits} {metadata : AttnMetadata}
    (h : limits.checkBounds metadata = .ok ()) :
    (∀ slot ∈ metadata.slotMapping, slot < (limits.numBlocks * limits.blockSize : ℕ)) ∧
      ∀ row ∈ metadata.blockTable.zip (memberLengths metadata.cuSeqlensK),
        divCeil row.2.toNat limits.blockSize ≤ row.1.length ∧
          ∀ block ∈ row.1, 0 ≤ block ∧ block < (limits.numBlocks : ℤ) := by
  rw [checkBounds] at h
  split at h
  · cases h
  · rename_i capacity hcapacity
    have hvalue : capacity = limits.numBlocks * limits.blockSize := by
      rw [checkedMul] at hcapacity
      split at hcapacity
      · exact (Option.some.inj hcapacity).symm
      · cases hcapacity
    split at h
    · cases h
    · rename_i hslots
      split at h
      · cases h
      · rename_i hrows
        rw [Bool.not_eq_true, List.any_eq_false] at hslots hrows
        refine ⟨fun slot hslot => ?_, fun row hrow => ⟨?_, fun block hblock => ?_⟩⟩
        · have hnot := hslots slot hslot
          rw [decide_eq_true_eq, hvalue] at hnot
          omega
        · by_contra hshort
          exact hrows row hrow (Bool.or_eq_true_iff.mpr
            (.inl (decide_eq_true (not_le.mp hshort))))
        · by_contra hout
          refine hrows row hrow (Bool.or_eq_true_iff.mpr (.inr (List.any_eq_true.mpr
            ⟨block, hblock, decide_eq_true ?_⟩)))
          omega

theorem of_prepareBlockTable {blockTable : List (List ℤ)} {table : BlockTableTensor}
    (h : prepareBlockTable blockTable = .ok (some table)) :
    blockTable ≠ [] ∧ 0 < table.width ∧ (∀ row ∈ blockTable, row.length ≤ table.width) ∧
      table.flat = blockTable.flatMap fun row =>
        row.map Int.toNat ++ List.replicate (table.width - row.length) 0 := by
  rw [prepareBlockTable] at h
  split at h
  · cases Except.ok.inj h
  · rename_i hne
    split at h
    · cases h
    · rename_i hwidth
      split at h
      · cases h
      · obtain rfl := Option.some.inj (Except.ok.inj h)
        exact ⟨hne, Nat.pos_of_ne_zero hwidth, fun row hrow => le_maxBlocks hrow, rfl⟩

/-- Accepted metadata: a prepared form with the checks of its planner. -/
structure Accepted (prepared : PreparedAttention) (metadata : AttnMetadata) (limits : MathLimits) :
    Prop where
  layout : prepared.LayoutOf metadata
  valid : metadata.Valid
  geometry : limits.checkGeometry = .ok ()
  bounds : limits.checkBounds metadata = .ok ()
  cacheShape : prepared.cacheShape =
    some [limits.numBlocks, limits.blockSize, limits.kvHeads, limits.headDim]

theorem accepted {prepared : PreparedAttention} {metadata : AttnMetadata} {limits : MathLimits}
    (h : PreparedAttention.prepareWithLimits metadata (some limits) = .ok prepared) :
    Accepted prepared metadata limits := by
  have L := PreparedAttention.layoutOf_prepareWithLimits h
  rw [PreparedAttention.prepareWithLimits] at h
  obtain ⟨_, -, h⟩ := exists_of_bind_ok h
  obtain ⟨⟨rectangular, work⟩, hplan, h⟩ := exists_of_bind_ok h
  obtain ⟨_, hgeometry, hplan⟩ := exists_of_bind_ok hplan
  obtain ⟨_, hbounds, -⟩ := exists_of_bind_ok hplan
  refine ⟨L, AttnMetadata.valid L.valid, hgeometry, hbounds, ?_⟩
  change (if ((PreparedAttention.rowsOfLayout metadata rectangular).getD []).any _ = true then _
    else _) = _ at h
  split at h
  · cases h
  · obtain ⟨table, -, h⟩ := exists_of_bind_ok h
    cases h
    rfl

namespace Accepted

variable {prepared : PreparedAttention} {metadata : AttnMetadata} {limits : MathLimits}

theorem memberLength_le_k (A : Accepted prepared metadata limits) {member : ℕ}
    (h : member + 1 < metadata.cuSeqlensK.length) :
    memberLength metadata.cuSeqlensK member ≤ metadata.maxSeqlenK := by
  obtain ⟨length, hlength, hvalue⟩ := exists_memberLength h
  exact hvalue ▸ A.valid.le_max_k length hlength

/-- The slots of accepted metadata are inside exactly if none is below the sentinel. -/
theorem slotsInside_iff (A : Accepted prepared metadata limits) :
    SlotsInside metadata.slotMapping (limits.numBlocks * limits.blockSize) ↔
      ∀ slot ∈ metadata.slotMapping, -1 ≤ slot := by
  constructor
  · intro hinside slot hslot
    by_cases hsentinel : slot = -1
    · exact hsentinel.ge
    · have hzero := (hinside slot hslot hsentinel).1
      omega
  · intro hsentinel slot hslot hne
    have hle := hsentinel slot hslot
    exact ⟨by omega, (MathLimits.of_checkBounds A.bounds).1 slot hslot⟩

theorem blockSize_pos (A : Accepted prepared metadata limits) : 0 < limits.blockSize := by
  have hgeometry := A.geometry
  rw [MathLimits.checkGeometry] at hgeometry
  split at hgeometry
  · cases hgeometry
  · omega

/-- A row of the block table covers the keys of its member with blocks of the cache. -/
theorem exists_block (A : Accepted prepared metadata limits) (hpaged : metadata.blockTable ≠ [])
    {member logical : ℕ} (hmember : member + 1 < metadata.cuSeqlensK.length)
    (hlogical : logical < memberLength metadata.cuSeqlensK member) :
    ∃ row block, metadata.blockTable[member]? = some row ∧
      row[logical / limits.blockSize]? = some (Int.ofNat block) ∧ block < limits.numBlocks := by
  have hrows : member < metadata.blockTable.length := by
    rw [A.valid.table hpaged, A.valid.length_eq]
    omega
  have hpair : (metadata.blockTable[member],
      metadata.cuSeqlensK.getD (member + 1) 0 - metadata.cuSeqlensK.getD member 0) ∈
        metadata.blockTable.zip (memberLengths metadata.cuSeqlensK) :=
    List.mem_iff_getElem?.mpr ⟨member, List.getElem?_zip_eq_some.mpr
      ⟨List.getElem?_eq_getElem hrows, getElem?_memberLengths hmember⟩⟩
  obtain ⟨hcover, hblocks⟩ := (MathLimits.of_checkBounds A.bounds).2 _ hpair
  have hcell : logical / limits.blockSize < metadata.blockTable[member].length := by
    refine lt_of_lt_of_le (Nat.div_lt_of_lt_mul ?_) hcover
    exact hlogical.trans_le (le_mul_divCeil _ _ A.blockSize_pos)
  obtain ⟨hnonneg, hlt⟩ := hblocks _ (List.getElem_mem hcell)
  refine ⟨metadata.blockTable[member], metadata.blockTable[member][logical / limits.blockSize].toNat,
    List.getElem?_eq_getElem hrows, ?_, by omega⟩
  rw [List.getElem?_eq_getElem hcell]
  exact congrArg some (Int.toNat_of_nonneg hnonneg).symm

/-- What a launched gather has checked: the geometry is that of the cache, the members are some of the
batch, and none of them has more keys than there are columns. -/
theorem of_gatherLaunch (A : Accepted prepared metadata limits) {dims : List ℕ}
    {selected : Option ℕ} {shape : CacheGather} {table : BlockTableTensor}
    (h : gatherLaunch dims prepared selected = .ok (shape, table)) :
    metadata.blockTable ≠ [] ∧ shape.numBlocks = limits.numBlocks ∧
      shape.blockSize = limits.blockSize ∧ shape.tableWidth = table.width ∧
      prepareBlockTable metadata.blockTable = .ok (some table) ∧
      ∀ member, shape.memberOffset ≤ member → member < shape.memberOffset + shape.batch →
        member + 1 < metadata.cuSeqlensK.length ∧
          memberLength metadata.cuSeqlensK member ≤ shape.keys := by
  unfold gatherLaunch at h
  split at h
  · rename_i numBlocks blockSize kvHeads headDim
    obtain ⟨_, hcache, h⟩ := exists_of_bind_ok h
    obtain ⟨found, hfound, h⟩ := exists_of_bind_ok h
    obtain ⟨⟨batch, keys, memberOffset⟩, hextent, h⟩ := exists_of_bind_ok h
    obtain ⟨rfl, rfl⟩ := Prod.mk.inj (Except.ok.inj h)
    have htable : prepareBlockTable metadata.blockTable = .ok (some found) := by
      rw [A.layout.blockTable]
      rw [PreparedAttention.blockTableTensor] at hfound
      split at hfound
      · rename_i hsome
        rw [hsome, Except.ok.inj hfound]
      · cases hfound
    obtain ⟨hpaged, hwidth, hwide, hflat⟩ := of_prepareBlockTable htable
    have hbatch : found.flat.length / found.width + 1 = metadata.cuSeqlensK.length := by
      have hnonempty : 0 < metadata.cuSeqlensK.length :=
        List.length_pos_of_mem (List.mem_of_mem_head? A.valid.head_k)
      rw [hflat, length_flatMap_rows hwide, Nat.mul_div_cancel _ hwidth, A.valid.table hpaged,
        A.valid.length_eq]
      omega
    have hdims : [numBlocks, blockSize, kvHeads, headDim] =
        [limits.numBlocks, limits.blockSize, limits.kvHeads, limits.headDim] := by
      rw [PreparedAttention.validateCache, A.cacheShape] at hcache
      split at hcache
      · cases hcache
      · dsimp only at hcache
        split at hcache
        · cases hcache
        · rename_i hsame
          exact not_not.mp hsame
    obtain ⟨hnumBlocks, hdims⟩ := List.cons_eq_cons.mp hdims
    obtain ⟨hblockSize, -⟩ := List.cons_eq_cons.mp hdims
    refine ⟨hpaged, hnumBlocks, hblockSize, rfl, htable, fun member hfirst hlast => ?_⟩
    rw [A.layout.logical] at hextent
    cases selected with
    | none =>
      obtain ⟨rfl, rfl, rfl⟩ : _ ∧ _ ∧ _ := by simpa [gatherExtent] using hextent
      have hlt : member + 1 < metadata.cuSeqlensK.length := by
        dsimp only at hlast
        omega
      exact ⟨hlt, A.memberLength_le_k hlt⟩
    | some selected =>
      rw [gatherExtent] at hextent
      split at hextent
      · cases hextent
      · obtain ⟨rfl, rfl, rfl⟩ : _ ∧ _ ∧ _ := by simpa using hextent
        dsimp only at hfirst hlast
        obtain rfl : member = selected := by omega
        exact ⟨by omega, le_refl _⟩
  · cases h

/-- **Every read of a gather** is inside the row of its member and inside the cache. -/
theorem readsInside (A : Accepted prepared metadata limits) {dims : List ℕ}
    {selected : Option ℕ} {shape : CacheGather} {table : BlockTableTensor}
    (h : gatherLaunch dims prepared selected = .ok (shape, table)) {index : ℕ}
    (hindex : index < shape.count) :
    shape.ReadsInside metadata.cuSeqlensK table metadata.blockTable index := by
  obtain ⟨hpaged, hnumBlocks, hblockSize, htableWidth, htable, hmembers⟩ := A.of_gatherLaunch h
  obtain ⟨-, -, hwide, hflat⟩ := of_prepareBlockTable htable
  have htoken : index / shape.width < shape.keys * shape.batch := by
    refine Nat.div_lt_of_lt_mul ?_
    rw [CacheGather.count] at hindex
    calc index < shape.batch * shape.keys * shape.width := hindex
      _ = shape.width * (shape.keys * shape.batch) := by ring
  have hkeys : 0 < shape.keys := Nat.pos_of_mul_pos_right (Nat.zero_lt_of_lt htoken)
  have hmember := Nat.div_lt_of_lt_mul htoken
  obtain ⟨hlt, hle⟩ := hmembers (shape.place index).1 (Nat.le_add_right _ _)
    (Nat.add_lt_add_left hmember _)
  have hcolumn : (shape.place index).2 < shape.keys := Nat.mod_lt _ hkeys
  refine ⟨hlt, A.valid.monotone_k _ (mem_windows hlt), hle, fun hreal => ?_⟩
  rw [CacheGather.padding, sizeSub_of_le hle] at hreal ⊢
  have hlogical : (shape.place index).2 -
      (shape.keys - memberLength metadata.cuSeqlensK (shape.place index).1) <
        memberLength metadata.cuSeqlensK (shape.place index).1 := by omega
  obtain ⟨row, block, hrow, hcell, hblock⟩ := A.exists_block hpaged hlt hlogical
  have hrowLe := hwide row (List.mem_of_getElem? hrow)
  have hcellLt := (List.getElem?_eq_some_iff.mp hcell).1
  rw [hblockSize, htableWidth, hnumBlocks]
  refine ⟨row, block, hrow, hcell, hrowLe, ?_, hblock, ?_⟩
  · rw [hflat, getElem?_flatMap_rows hwide hrow (hcellLt.trans_le hrowLe),
      List.getD_eq_getElem?_getD, hcell]
    rfl
  · calc _ < block * limits.blockSize + limits.blockSize :=
        Nat.add_lt_add_left (Nat.mod_lt _ A.blockSize_pos) _
      _ = (block + 1) * limits.blockSize := (Nat.succ_mul _ _).symm
      _ ≤ limits.numBlocks * limits.blockSize := Nat.mul_le_mul_right _ hblock

theorem rowsInside (A : Accepted prepared metadata limits) : RowsInside prepared metadata := by
  have hreal : ∀ rows, prepared.realRows = some rows →
      rows = PreparedAttention.realRowIndices metadata.maxSeqlenQ 0
        (memberLengths metadata.cuSeqlensQ) := by
    intro rows hrows
    rw [A.layout.realRows, PreparedAttention.rowsOfLayout] at hrows
    split at hrows
    · exact (Option.some.inj hrows).symm
    · cases hrows
  have hinside := realRowIndices_inside 0 A.valid.le_max_q
  rw [length_memberLengths, Nat.zero_add] at hinside
  refine ⟨fun rows hrows => ?_, fun rows hrows row hrow => ?_, fun pair hpair => ?_⟩
  · exact hreal rows hrows ▸ hinside.1
  · rw [hreal rows hrows] at hrow
    exact (hinside.2 row hrow).2
  · have hlast := le_getLast_of_windows A.valid.monotone_q pair.2
      (List.mem_of_mem_tail (List.of_mem_zip hpair).2)
    refine ⟨A.valid.monotone_q pair hpair, ?_, ?_⟩
    · rw [A.valid.slots]
      exact UInt32.le_iff_toNat_le.mp hlast
    · exact A.valid.le_max_q _ (List.mem_map_of_mem hpair)

/-- **No subtraction** of the masked softmax goes below zero. -/
theorem subtracts (A : Accepted prepared metadata limits) {R : Type} [Field R] [LinearOrder R]
    {arithmetic : ExactArithmetic R} {scores output : Tensor R} {mask : AttentionMask}
    (h : softmax arithmetic scores prepared mask = .ok output) {row : ℕ}
    (hrow : row < scores.dims.prod / mask.keys) :
    mask.Subtracts metadata.cuSeqlensQ metadata.cuSeqlensK row := by
  rw [softmax] at h
  obtain ⟨⟨batchHeads, rows, keys⟩, hdims, h⟩ := exists_of_bind_ok h
  dsimp only at h
  obtain ⟨_, hextent, h⟩ := exists_of_bind_ok h
  obtain ⟨_, hlengths, -⟩ := exists_of_bind_ok h
  have hextent := not_of_bailIf_ok hextent
  have hlengths := not_of_bailIf_ok hlengths
  rw [A.layout.logical] at hextent hlengths
  push Not at hextent
  obtain ⟨hheads, hmultiple, rfl, rfl, hcausal, -, hmembers⟩ := hextent
  have hlast : mask.memberOffset + batchHeads / mask.heads < metadata.cuSeqlensQ.length := by
    by_contra hbeyond
    refine hmembers ?_
    rw [checkedAdd]
    split
    · exact decide_eq_true (not_lt.mp hbeyond)
    · rfl
  have hmember : row / (mask.heads * mask.chunkRows) < batchHeads / mask.heads := by
    rw [Tensor.dims_of_dims3 hdims] at hrow
    have hrows : row < batchHeads * mask.chunkRows := by
      refine hrow.trans_le (Nat.div_le_of_le_mul (Nat.le_of_eq ?_))
      simp only [List.prod_cons, List.prod_nil]
      ring
    refine Nat.div_lt_of_lt_mul (hrows.trans_le (Nat.le_of_eq ?_))
    calc batchHeads * mask.chunkRows =
        mask.heads * (batchHeads / mask.heads) * mask.chunkRows := by
          rw [Nat.mul_div_cancel' (Nat.dvd_of_mod_eq_zero hmultiple)]
      _ = mask.heads * mask.chunkRows * (batchHeads / mask.heads) := by ring
  have hmem : mask.member row ∈ List.range' mask.memberOffset (batchHeads / mask.heads) :=
    List.mem_range'.mpr ⟨row / (mask.heads * mask.chunkRows), hmember, by
      rw [AttentionMask.member, Nat.one_mul]⟩
  have hlt : mask.member row + 1 < metadata.cuSeqlensQ.length := by
    rw [AttentionMask.member]
    omega
  have hltK : mask.member row + 1 < metadata.cuSeqlensK.length := by
    rwa [← A.valid.length_eq]
  rw [Bool.not_eq_true, List.any_eq_false] at hlengths
  have hle := hlengths _ hmem
  rw [decide_eq_true_eq, not_or, not_lt, not_lt] at hle
  exact ⟨⟨hlt, hltK⟩,
    ⟨A.valid.monotone_q _ (mem_windows hlt), A.valid.monotone_k _ (mem_windows hltK)⟩,
    hle.1, hle.2, hcausal⟩

end Accepted

/-- **The addresses of accepted metadata.** Whatever the preparation accepts, the kernels address
only the cache, the rows of the block table and the token rows, and subtract only what is not larger,
exactly if no slot is below the sentinel `-1`. -/
theorem PreparedAttention.addressesCache_iff {prepared : PreparedAttention}
    {metadata : AttnMetadata} {limits : MathLimits}
    (h : prepareWithLimits metadata (some limits) = .ok prepared) :
    AddressesCache prepared metadata limits ↔ ∀ slot ∈ metadata.slotMapping, -1 ≤ slot := by
  have A := accepted h
  rw [← A.slotsInside_iff]
  constructor
  · exact fun addresses => addresses.slots
  · intro hslots
    refine ⟨hslots, fun dims member shape table hlaunch => ?_, A.rowsInside,
      fun R _ _ arithmetic scores output mask hsoftmax row hrow => A.subtracts hsoftmax hrow⟩
    obtain ⟨-, hnumBlocks, hblockSize, -⟩ := A.of_gatherLaunch hlaunch
    exact ⟨hnumBlocks, hblockSize, fun index hindex => A.readsInside hlaunch hindex⟩

/-- The metadata of two members without a negative slot address only the cache. -/
theorem addressesCache_twoMembers :
    ∃ prepared, PreparedAttention.prepareWithLimits MathLimits.twoMemberMetadata
        (some MathLimits.smallLimits) = .ok prepared ∧
      AddressesCache prepared MathLimits.twoMemberMetadata MathLimits.smallLimits := by
  have hsome : (PreparedAttention.prepareWithLimits MathLimits.twoMemberMetadata
      (some MathLimits.smallLimits)).isOk = true := by
    decide +kernel
  obtain ⟨prepared, hprepared⟩ := exists_of_isOk hsome
  exact ⟨prepared, hprepared,
    (PreparedAttention.addressesCache_iff hprepared).mpr (by decide)⟩

/-- A slot of `-2` is accepted, and its token is written before the beginning of the cache. -/
theorem not_addressesCache_below_sentinel :
    ∃ prepared, PreparedAttention.prepareWithLimits (buildPrefillMetadata [1] [1] [-2])
        (some MathLimits.smallLimits) = .ok prepared ∧
      ¬ AddressesCache prepared (buildPrefillMetadata [1] [1] [-2]) MathLimits.smallLimits ∧
      -32 ∈ cacheWrites [-2] (MathLimits.smallLimits.kvHeads * MathLimits.smallLimits.headDim) 0 := by
  have hsome : (PreparedAttention.prepareWithLimits (buildPrefillMetadata [1] [1] [-2])
      (some MathLimits.smallLimits)).isOk = true := by
    decide +kernel
  obtain ⟨prepared, hprepared⟩ := exists_of_isOk hsome
  refine ⟨prepared, hprepared, fun addresses => ?_, by decide⟩
  have hinside := (addresses.slots (-2) List.mem_cons_self (by decide)).1
  exact absurd hinside (by decide)

end VllmOxide
