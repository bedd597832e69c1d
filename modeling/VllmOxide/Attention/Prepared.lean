import VllmOxide.Attention.MathLayout

/-!
# Prepared attention metadata

The attention layer validates the logical metadata of a step once and prepares what every layer
then reads: the layout, the block table as a rectangular array, and, for a rectangular layout with
padding, the rows at which the real query tokens stand.

## Main definitions

* `validateLogicalMetadata`, `prepareBlockTable`, `PreparedAttention.prepareWithLimits`.
* `AttnMetadata.Describes`: the metadata has the given members.

## Main results

* `describes_buildPrefillMetadata`, `describes_buildContinuedPrefillMetadata`,
  `describes_buildDecodeMetadata`: the metadata that are built have the members they are built from.
* `AttnMetadata.Describes.memberLengths_q`, `AttnMetadata.Describes.memberLengths_k`: the members can
  be read off.
* `AttnMetadata.Describes.validate`: the metadata of causal members are valid.
-/

namespace VllmOxide

/-! ### Preparation -/

/-- `validate_logical_metadata`. -/
def validateLogicalMetadata (metadata : AttnMetadata) : Except String Unit :=
  let queries := memberLengths metadata.cuSeqlensQ
  let keys := memberLengths metadata.cuSeqlensK
  let queryTokens := (metadata.cuSeqlensQ.getLast?.getD 0).toNat
  let batchSize := metadata.cuSeqlensQ.length - 1
  if metadata.cuSeqlensQ.isEmpty || metadata.cuSeqlensK.isEmpty then
    .error "attention cumulative lengths must start with zero"
  else if metadata.cuSeqlensQ.length ≠ metadata.cuSeqlensK.length then
    .error "attention query/key cumulative length vectors must have the same batch shape"
  else if metadata.cuSeqlensQ.head? ≠ some 0 ∨ metadata.cuSeqlensK.head? ≠ some 0 then
    .error "attention cumulative lengths must start with zero"
  else if !((windows metadata.cuSeqlensQ).all fun (first, second) => decide (first ≤ second)) ||
      !((windows metadata.cuSeqlensK).all fun (first, second) => decide (first ≤ second)) then
    .error "attention cumulative lengths must be monotonic"
  else if (queries.any fun length => decide (metadata.maxSeqlenQ < length.toNat)) ||
      keys.any fun length => decide (metadata.maxSeqlenK < length.toNat) then
    .error "attention maximum lengths are smaller than a member length"
  else if metadata.slotMapping.length ≠ queryTokens then
    .error s!"attention slot mapping has {metadata.slotMapping.length} entries for {queryTokens} query tokens"
  else if (queries.zip keys).any fun (queries, keys) => decide (keys < queries) then
    .error "causal self-attention queries exceed their KV lengths"
  else if metadata.blockTable ≠ [] ∧ metadata.blockTable.length ≠ batchSize then
    .error s!"attention block table has {metadata.blockTable.length} rows for batch size {batchSize}"
  else .ok ()

/-- The block table as a rectangular array with rows of the given width. -/
structure BlockTableTensor where
  flat : List ℕ
  width : ℕ

/-- The longest row of a block table. -/
def maxBlocks (blockTable : List (List ℤ)) : ℕ :=
  blockTable.foldl (fun best row => max best row.length) 0

/-- `prepare_block_table`: rows are filled up with zeros. -/
def prepareBlockTable (blockTable : List (List ℤ)) : Except String (Option BlockTableTensor) :=
  let width := maxBlocks blockTable
  if blockTable = [] then .ok none
  else if width = 0 then .error "paged attention block table rows must be non-empty"
  else if blockTable.any fun row => row.any fun block => decide (block < 0) then
    .error "attention block IDs must be nonnegative"
  else
    .ok (some
      { flat := blockTable.flatMap fun row =>
          row.map Int.toNat ++ List.replicate (width - row.length) 0
        width := width })

/-- The prepared form of the metadata of a step. -/
structure PreparedAttention where
  logical : AttnMetadata
  blockTable : Option BlockTableTensor
  rectangular : Bool
  realRows : Option (List ℕ)
  packedWork : List QueryWork
  cacheShape : Option (List ℕ)

namespace PreparedAttention

/-- The rows of the real query tokens in a rectangular layout, in which they stand at the end of
their member. -/
def realRowIndices (maxSeqlenQ : ℕ) : (member : ℕ) → (counts : List UInt32) → List ℕ
  | _, [] => []
  | member, count :: rest =>
    (List.range count.toNat).map
        (fun row => member * maxSeqlenQ + maxSeqlenQ - count.toNat + row) ++
      realRowIndices maxSeqlenQ (member + 1) rest

/-- `prepare_with_limits`. -/
def prepareWithLimits (logical : AttnMetadata) (limits : Option MathLimits) :
    Except String PreparedAttention := do
  validateLogicalMetadata logical
  let queries := memberLengths logical.cuSeqlensQ
  let (rectangular, packedWork) ←
    match limits with
    | some limits => limits.plan logical
    | none => .ok (false, queries.map fun count => QueryWork.standard count.toNat)
  let batch := logical.cuSeqlensQ.length - 1
  let realRows :=
    if rectangular = true ∧ batch * logical.maxSeqlenQ ≠ logical.slotMapping.length then
      some (realRowIndices logical.maxSeqlenQ 0 queries)
    else none
  if (realRows.getD []).any fun row => decide (4294967296 ≤ row) then
    throw "out of range integral type conversion attempted"
  let blockTable ← prepareBlockTable logical.blockTable
  return {
    logical := logical
    blockTable := blockTable
    rectangular := rectangular
    realRows := realRows
    packedWork := packedWork
    cacheShape := limits.map fun limits =>
      [limits.numBlocks, limits.blockSize, limits.kvHeads, limits.headDim] }

end PreparedAttention

/-! ### Cumulative lengths -/

theorem cumulative_eq_cons (start : UInt32) (lengths : List UInt32) :
    ∃ rest, cumulative start lengths = start :: rest := by
  cases lengths with
  | nil => exact ⟨[], rfl⟩
  | cons length rest => exact ⟨_, rfl⟩

@[simp] theorem length_cumulative (start : UInt32) (lengths : List UInt32) :
    (cumulative start lengths).length = lengths.length + 1 := by
  induction lengths generalizing start with
  | nil => rfl
  | cons length rest ih => rw [cumulative, List.length_cons, ih, List.length_cons]

/-- The first window of cumulative lengths, and the others. -/
theorem windows_cumulative_cons (start length : UInt32) (rest : List UInt32) :
    windows (cumulative start (length :: rest)) =
      (start, start + length) :: windows (cumulative (start + length) rest) := by
  obtain ⟨tail, htail⟩ := cumulative_eq_cons (start + length) rest
  rw [cumulative, htail]
  rfl

/-- **The lengths can be read off their prefix sums**, also when these wrap. -/
@[simp] theorem memberLengths_cumulative (start : UInt32) (lengths : List UInt32) :
    memberLengths (cumulative start lengths) = lengths := by
  induction lengths generalizing start with
  | nil => rfl
  | cons length rest ih =>
    have hrest := ih (start + length)
    have hfirst : start + length - start = length := by
      rw [UInt32.add_comm, UInt32.add_sub_cancel]
    rw [memberLengths] at hrest ⊢
    rw [windows_cumulative_cons, List.map_cons, hrest]
    exact congrArg (· :: rest) hfirst

/-- The sum of some lengths. -/
def total (lengths : List UInt32) : ℕ :=
  (lengths.map UInt32.toNat).sum

theorem toNat_add_of_lt {a b : UInt32} (h : a.toNat + b.toNat < 4294967296) :
    (a + b).toNat = a.toNat + b.toNat := by
  rw [UInt32.toNat_add]
  exact Nat.mod_eq_of_lt h

/-- Prefix sums that fit are monotone. -/
theorem le_of_mem_windows_cumulative {start : UInt32} {lengths : List UInt32}
    (hfits : start.toNat + total lengths < 4294967296) :
    ∀ pair ∈ windows (cumulative start lengths), pair.1 ≤ pair.2 := by
  induction lengths generalizing start with
  | nil =>
    rintro pair hpair
    cases hpair
  | cons length rest ih =>
    have hsum : total (length :: rest) = length.toNat + total rest := rfl
    rw [hsum] at hfits
    have hnext : (start + length).toNat = start.toNat + length.toNat :=
      toNat_add_of_lt (by omega)
    rw [windows_cumulative_cons]
    rintro pair (_ | ⟨_, hpair⟩)
    · show start ≤ start + length
      rw [UInt32.le_iff_toNat_le, hnext]
      omega
    · exact ih (by omega) pair hpair

/-- The last prefix sum is the sum. -/
theorem toNat_getLast?_cumulative {start : UInt32} {lengths : List UInt32}
    (hfits : start.toNat + total lengths < 4294967296) :
    ((cumulative start lengths).getLast?.getD 0).toNat = start.toNat + total lengths := by
  induction lengths generalizing start with
  | nil => simp [cumulative, total]
  | cons length rest ih =>
    have hsum : total (length :: rest) = length.toNat + total rest := rfl
    rw [hsum] at hfits ⊢
    have hnext : (start + length).toNat = start.toNat + length.toNat :=
      toNat_add_of_lt (by omega)
    obtain ⟨tail, htail⟩ := cumulative_eq_cons (start + length) rest
    have hrest : ((cumulative (start + length) rest).getLast?.getD 0).toNat =
        (start + length).toNat + total rest := ih (by omega)
    rw [htail] at hrest
    rw [cumulative, htail, List.getLast?_cons_cons, hrest]
    omega

theorem le_maxLength_foldl {lengths : List UInt32} :
    ∀ best : ℕ, best ≤ lengths.foldl (fun best length => max best length.toNat) best ∧
      ∀ length ∈ lengths,
        length.toNat ≤ lengths.foldl (fun best length => max best length.toNat) best := by
  induction lengths with
  | nil => simp
  | cons first rest ih =>
    intro best
    obtain ⟨hbest, hrest⟩ := ih (max best first.toNat)
    refine ⟨(le_max_left _ _).trans hbest, ?_⟩
    rintro length (_ | ⟨_, hlength⟩)
    · exact (le_max_right _ _).trans hbest
    · exact hrest length hlength

/-- No length is larger than the maximum. -/
theorem le_maxLength {lengths : List UInt32} {length : UInt32} (h : length ∈ lengths) :
    length.toNat ≤ maxLength lengths :=
  (le_maxLength_foldl 0).2 length h

/-! ### Metadata with given members -/

/-- The metadata has the given members, each with its query and key length. -/
structure AttnMetadata.Describes (metadata : AttnMetadata) (members : List (UInt32 × UInt32)) :
    Prop where
  cuSeqlensQ : metadata.cuSeqlensQ = cumulative 0 (members.map Prod.fst)
  cuSeqlensK : metadata.cuSeqlensK = cumulative 0 (members.map Prod.snd)
  le_maxSeqlenQ : ∀ member ∈ members, member.1.toNat ≤ metadata.maxSeqlenQ
  le_maxSeqlenK : ∀ member ∈ members, member.2.toNat ≤ metadata.maxSeqlenK

theorem describes_buildContinuedPrefillMetadata (scheduledTokens kvLengths : List UInt32)
    (blockTable : List (List ℤ)) (slotMapping : List ℤ) :
    (buildContinuedPrefillMetadata scheduledTokens kvLengths blockTable slotMapping).Describes
      (scheduledTokens.zip kvLengths) where
  cuSeqlensQ := rfl
  cuSeqlensK := rfl
  le_maxSeqlenQ _ hmember := le_maxLength (List.mem_map_of_mem hmember)
  le_maxSeqlenK _ hmember := le_maxLength (List.mem_map_of_mem hmember)

theorem describes_buildPrefillMetadata (scheduledTokens kvLengths : List UInt32)
    (slotMapping : List ℤ) :
    (buildPrefillMetadata scheduledTokens kvLengths slotMapping).Describes
      (scheduledTokens.zip kvLengths) :=
  describes_buildContinuedPrefillMetadata scheduledTokens kvLengths [] slotMapping

theorem describes_buildDecodeMetadata (contextLens : List UInt32) (blockTable : List (List ℤ))
    (slotMapping : List ℤ) :
    (buildDecodeMetadata contextLens blockTable slotMapping).Describes
      (contextLens.map fun length => (1, length)) where
  cuSeqlensQ := by simp [buildDecodeMetadata, Function.comp_def]
  cuSeqlensK := by simp [buildDecodeMetadata, Function.comp_def]
  le_maxSeqlenQ member hmember := by
    obtain ⟨length, -, rfl⟩ := List.mem_map.mp hmember
    exact le_refl 1
  le_maxSeqlenK member hmember := by
    obtain ⟨length, hlength, rfl⟩ := List.mem_map.mp hmember
    exact le_maxLength hlength

namespace AttnMetadata.Describes

variable {metadata : AttnMetadata} {members : List (UInt32 × UInt32)}

theorem memberLengths_q (h : metadata.Describes members) :
    memberLengths metadata.cuSeqlensQ = members.map Prod.fst := by
  rw [h.cuSeqlensQ, memberLengths_cumulative]

theorem memberLengths_k (h : metadata.Describes members) :
    memberLengths metadata.cuSeqlensK = members.map Prod.snd := by
  rw [h.cuSeqlensK, memberLengths_cumulative]

/-- **The metadata of causal members are valid**, when the sums of their lengths fit `u32`. -/
theorem validate (h : metadata.Describes members)
    (hqueries : total (members.map Prod.fst) < 4294967296)
    (hkeys : total (members.map Prod.snd) < 4294967296)
    (hcausal : ∀ member ∈ members, member.1 ≤ member.2)
    (hslots : metadata.slotMapping.length = total (members.map Prod.fst))
    (hrows : metadata.blockTable = [] ∨ metadata.blockTable.length = members.length) :
    validateLogicalMetadata metadata = .ok () := by
  obtain ⟨restQ, hrestQ⟩ := cumulative_eq_cons 0 (members.map Prod.fst)
  obtain ⟨restK, hrestK⟩ := cumulative_eq_cons 0 (members.map Prod.snd)
  have hmonotone : ∀ lengths : List UInt32, total lengths < 4294967296 →
      ((windows (cumulative 0 lengths)).all fun (first, second) =>
        decide (first ≤ second)) = true := by
    intro lengths hfits
    rw [List.all_eq_true]
    intro pair hpair
    exact decide_eq_true (le_of_mem_windows_cumulative (by simpa using hfits) pair hpair)
  have hlast : (metadata.cuSeqlensQ.getLast?.getD 0).toNat = total (members.map Prod.fst) := by
    rw [h.cuSeqlensQ, toNat_getLast?_cumulative (by simpa using hqueries)]
    simp
  have hlengthQ : metadata.cuSeqlensQ.length = members.length + 1 := by
    rw [h.cuSeqlensQ, length_cumulative, List.length_map]
  have hlengthK : metadata.cuSeqlensK.length = members.length + 1 := by
    rw [h.cuSeqlensK, length_cumulative, List.length_map]
  have hheadQ : metadata.cuSeqlensQ.head? = some 0 := by rw [h.cuSeqlensQ, hrestQ, List.head?_cons]
  have hheadK : metadata.cuSeqlensK.head? = some 0 := by rw [h.cuSeqlensK, hrestK, List.head?_cons]
  simp only [validateLogicalMetadata, h.memberLengths_q, h.memberLengths_k, hlast, hlengthQ]
  rw [if_neg, if_neg, if_neg, if_neg, if_neg, if_neg, if_neg, if_neg]
  · rintro ⟨hpaged, hbatch⟩
    rcases hrows with hnil | hlength
    · exact hpaged hnil
    · exact hbatch hlength
  · rw [List.any_eq_true]
    rintro ⟨⟨queries, keys⟩, hmember, hbad⟩
    rw [List.zip_map', List.mem_map] at hmember
    obtain ⟨member, hmember, hpair⟩ := hmember
    obtain ⟨rfl, rfl⟩ := Prod.mk.inj hpair
    have hle := hcausal member hmember
    rw [UInt32.le_iff_toNat_le] at hle
    have hlt : member.2 < member.1 := of_decide_eq_true hbad
    rw [UInt32.lt_iff_toNat_lt] at hlt
    omega
  · exact not_not.mpr hslots
  · rw [Bool.or_eq_true, List.any_eq_true, List.any_eq_true]
    rintro (⟨length, hlength, hbad⟩ | ⟨length, hlength, hbad⟩)
    · obtain ⟨member, hmember, rfl⟩ := List.mem_map.mp hlength
      exact absurd (of_decide_eq_true hbad) (not_lt.mpr (h.le_maxSeqlenQ member hmember))
    · obtain ⟨member, hmember, rfl⟩ := List.mem_map.mp hlength
      exact absurd (of_decide_eq_true hbad) (not_lt.mpr (h.le_maxSeqlenK member hmember))
  · rw [h.cuSeqlensQ, h.cuSeqlensK, hmonotone _ hqueries, hmonotone _ hkeys]
    decide
  · rw [hheadQ, hheadK]
    simp
  · rw [hlengthK]
    simp
  · rw [h.cuSeqlensQ, h.cuSeqlensK, hrestQ, hrestK]
    simp

end AttnMetadata.Describes

end VllmOxide
