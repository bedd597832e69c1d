import VllmOxide.Engine.Sequence

/-!
# KV-cache capacity

The number of physical blocks is fixed once, before any request is accepted, from the geometry of
the model and the memory budget. `KvCachePlan.fromBudget` refuses a budget that cannot hold one
sequence of the model length.

## Main definitions

* `KvCachePlan.fromBudget`: the capacity of the cache.

## Main results

* `KvCachePlan.required_le_numBlocks`: a planned cache holds one sequence of the model length.
* `KvCachePlan.slots_le`: the slots of a planned cache are counted by `usize`.
-/

namespace VllmOxide

/-- The element types of the cache; the CUDA attention path supports the two named ones. -/
inductive DType
  | bf16
  | f16
  | other (name : String) (bytes : ℕ)
deriving DecidableEq, Repr

/-- `DType::size_in_bytes`. -/
def DType.sizeInBytes : DType → ℕ
  | bf16 => 2
  | f16 => 2
  | other _ bytes => bytes

/-- The geometry of a model-owned paged cache. -/
structure PagedKVCacheGeometry where
  numLayers : ℕ
  blockSize : ℕ
  numKvHeads : ℕ
  headDim : ℕ
  dtype : DType

/-- The dimensions that must not be zero, by name. -/
def PagedKVCacheGeometry.dimensions (geometry : PagedKVCacheGeometry) : List (String × ℕ) :=
  [("num_layers", geometry.numLayers), ("block_size", geometry.blockSize),
    ("num_kv_heads", geometry.numKvHeads), ("head_dim", geometry.headDim)]

/-- The bytes of the keys and values of one block. -/
def PagedKVCacheGeometry.bytesPerBlock (geometry : PagedKVCacheGeometry) : Option ℕ :=
  [2, geometry.numLayers, geometry.blockSize, geometry.numKvHeads, geometry.headDim,
    geometry.dtype.sizeInBytes].foldlM checkedMul 1

/-- The reasons for which no capacity can be planned, with the values that the message shows. -/
inductive KvCachePlanError
  | utilization (gpuMemoryUtilization : Float32)
  | dtype (dtype : DType)
  | zeroDimension (name : String)
  | overflow
  | budget (poolBytes numBlocks maxModelLen requiredBlocks bytesPerBlock : ℕ)

/-- The planned capacity. -/
structure KvCachePlan where
  bytesPerBlock : ℕ
  poolBytes : ℕ
  numBlocks : ℕ

namespace KvCachePlan

/-- The utilization is not a fraction of the memory. -/
def isBadUtilization (gpuMemoryUtilization : Float32) : Bool :=
  !gpuMemoryUtilization.isFinite ||
    !(decide (0 ≤ gpuMemoryUtilization) && decide (gpuMemoryUtilization ≤ 1)) ||
    gpuMemoryUtilization == 0

/-- The share of the available memory, rounded down to whole bytes. -/
def poolBytesOf (availableBytes : ℕ) (gpuMemoryUtilization : Float32) : ℕ :=
  (Float.ofNat availableBytes * gpuMemoryUtilization.toFloat).toUInt64.toNat

/-- `KvCachePlan::from_budget`. -/
def fromBudget (geometry : PagedKVCacheGeometry) (availableBytes : ℕ)
    (gpuMemoryUtilization : Float32) (maxModelLen : ℕ) : Except KvCachePlanError KvCachePlan :=
  if isBadUtilization gpuMemoryUtilization then .error (.utilization gpuMemoryUtilization)
  else if geometry.dtype ≠ .bf16 ∧ geometry.dtype ≠ .f16 then .error (.dtype geometry.dtype)
  else
    match geometry.dimensions.find? (fun dimension => dimension.2 == 0) with
    | some (name, _) => .error (.zeroDimension name)
    | none =>
      match geometry.bytesPerBlock with
      | none => .error .overflow
      | some bytesPerBlock =>
        let poolBytes := poolBytesOf availableBytes gpuMemoryUtilization
        let numBlocks := poolBytes / bytesPerBlock
        let requiredBlocks := divCeil maxModelLen geometry.blockSize
        if numBlocks < requiredBlocks then
          .error (.budget poolBytes numBlocks maxModelLen requiredBlocks bytesPerBlock)
        else .ok ⟨bytesPerBlock, poolBytes, numBlocks⟩

/-- A planned cache holds one sequence of the model length, whatever the floating-point product
of the budget is. -/
theorem required_le_numBlocks {geometry : PagedKVCacheGeometry} {availableBytes maxModelLen : ℕ}
    {gpuMemoryUtilization : Float32} {plan : KvCachePlan}
    (h : fromBudget geometry availableBytes gpuMemoryUtilization maxModelLen = .ok plan) :
    divCeil maxModelLen geometry.blockSize ≤ plan.numBlocks := by
  simp only [fromBudget] at h
  split at h
  · cases h
  · split at h
    · cases h
    · split at h
      · cases h
      · split at h
        · cases h
        · split at h
          · cases h
          · rename_i hroom
            obtain rfl := Except.ok.inj h
            exact not_lt.mp hroom

/-- A product that fits is the product of its factors. -/
theorem eq_prod_of_foldlM {values : List ℕ} :
    ∀ {start result : ℕ}, values.foldlM checkedMul start = some result →
      result = start * values.prod := by
  induction values with
  | nil =>
    intro start result h
    obtain rfl : start = result := Option.some.inj h
    simp
  | cons value rest ih =>
    intro start result h
    rw [List.foldlM_cons] at h
    obtain ⟨next, hnext, hrest⟩ := Option.bind_eq_some_iff.mp h
    rw [checkedMul] at hnext
    split at hnext
    · obtain rfl := Option.some.inj hnext
      rw [ih hrest, List.prod_cons, Nat.mul_assoc]
    · cases hnext

/-- The slots of a planned cache are counted by `usize`. -/
theorem slots_le {geometry : PagedKVCacheGeometry} {availableBytes maxModelLen : ℕ}
    {gpuMemoryUtilization : Float32} {plan : KvCachePlan}
    (h : fromBudget geometry availableBytes gpuMemoryUtilization maxModelLen = .ok plan) :
    plan.numBlocks * geometry.blockSize ≤ USIZE_MAX := by
  simp only [fromBudget] at h
  split at h
  · cases h
  split at h
  · cases h
  rename_i hdtype
  split at h
  · cases h
  rename_i hdimensions
  split at h
  · cases h
  rename_i bytesPerBlock hbytes
  split at h
  · cases h
  obtain rfl := Except.ok.inj h
  have hpos : ∀ dimension ∈ geometry.dimensions, 0 < dimension.2 := fun dimension hmem => by
    have hzero := List.find?_eq_none.mp hdimensions dimension hmem
    exact Nat.pos_of_ne_zero (by simpa using hzero)
  simp only [PagedKVCacheGeometry.dimensions, List.forall_mem_cons, List.not_mem_nil] at hpos
  obtain ⟨hlayers, hsize, hheads, hdim, -⟩ := hpos
  have htwo : 0 < geometry.dtype.sizeInBytes := by
    by_cases hbf : geometry.dtype = .bf16
    · simp [hbf, DType.sizeInBytes]
    · have hf : geometry.dtype = .f16 := by
        by_contra hf
        exact hdtype ⟨hbf, hf⟩
      simp [hf, DType.sizeInBytes]
  have hle : geometry.blockSize ≤ bytesPerBlock := by
    rw [eq_prod_of_foldlM hbytes]
    simp only [List.prod_cons, List.prod_nil, Nat.mul_one, Nat.one_mul]
    refine Nat.le_of_dvd (by positivity) ?_
    exact (Dvd.intro _ rfl : geometry.blockSize ∣ geometry.blockSize * _).trans
      (((dvd_mul_left _ _).trans (dvd_mul_left _ _)))
  have hbudget : poolBytesOf availableBytes gpuMemoryUtilization ≤ USIZE_MAX := by
    have hlt := UInt64.toNat_lt
      (Float.ofNat availableBytes * gpuMemoryUtilization.toFloat).toUInt64
    simp only [poolBytesOf, USIZE_MAX]
    omega
  calc poolBytesOf availableBytes gpuMemoryUtilization / bytesPerBlock * geometry.blockSize
      ≤ poolBytesOf availableBytes gpuMemoryUtilization / bytesPerBlock * bytesPerBlock :=
        Nat.mul_le_mul_left _ hle
    _ ≤ poolBytesOf availableBytes gpuMemoryUtilization := Nat.div_mul_le_self _ _
    _ ≤ USIZE_MAX := hbudget

end KvCachePlan

end VllmOxide
