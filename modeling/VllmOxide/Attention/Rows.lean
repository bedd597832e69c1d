import VllmOxide.Attention.Packed

/-!
# Rows of a prepared step

The metadata builders give a batch of causal members. Preparing such metadata fixes a layout of the
query rows: packed, or rectangular with the rows of each member at the end of its part. Padding packed
rows and dropping the padding again is the identity.

## Main definitions

* `AttnMetadata.Built`: the metadata that the builders produce for some members.
* `PreparedAttention.LayoutOf`: a prepared form of some metadata, with any layout and any chunks.
* `PreparedAttention.layoutRow`: the row of a query token in the layout.

## Main results

* `PreparedAttention.layoutOf_prepareWithLimits`: preparing metadata gives such a form.
* `PreparedAttention.LayoutOf.unpad_pad`: padding and unpadding packed rows is the identity.
-/

namespace VllmOxide

/-! ### Metadata of causal members -/

/-- The metadata that the builders produce for members with the given query and key lengths: decode
steps have one query for each member, unpaged prefill steps have as many queries as keys. -/
inductive AttnMetadata.Built : AttnMetadata → List (UInt32 × UInt32) → Prop
  | decode (contextLens : List UInt32) (blockTable : List (List ℤ)) (slotMapping : List ℤ) :
    Built (buildDecodeMetadata contextLens blockTable slotMapping)
      (contextLens.map fun length => (1, length))
  | prefill (lengths : List UInt32) (slotMapping : List ℤ) :
    Built (buildPrefillMetadata lengths lengths slotMapping)
      (lengths.map fun length => (length, length))
  | continuedPrefill (members : List (UInt32 × UInt32)) (blockTable : List (List ℤ))
      (slotMapping : List ℤ) :
    Built (buildContinuedPrefillMetadata (members.map Prod.fst) (members.map Prod.snd) blockTable
      slotMapping) members

theorem maxLength_le {lengths : List UInt32} {bound : ℕ}
    (h : ∀ length ∈ lengths, length.toNat ≤ bound) : maxLength lengths ≤ bound := by
  have hfold : ∀ (rest : List UInt32) (best : ℕ), best ≤ bound →
      (∀ length ∈ rest, length.toNat ≤ bound) →
      rest.foldl (fun best length => max best length.toNat) best ≤ bound := by
    intro rest
    induction rest with
    | nil => exact fun _ hbest _ => hbest
    | cons length rest ih =>
      exact fun best hbest hrest => ih _ (max_le hbest (hrest length List.mem_cons_self))
        fun length hlength => hrest length (List.mem_cons_of_mem _ hlength)
  exact hfold lengths 0 (Nat.zero_le _) h

/-- The members of a batch are causal: each has a query, and no more queries than keys. -/
def Causal (members : List (UInt32 × UInt32)) : Prop :=
  ∀ member ∈ members, 1 ≤ member.1.toNat ∧ member.1.toNat ≤ member.2.toNat

instance (members : List (UInt32 × UInt32)) : Decidable (Causal members) :=
  List.decidableBAll _ members

theorem zip_self {α : Type} (xs : List α) : xs.zip xs = xs.map fun x => (x, x) := by
  have h := List.zip_map' (f := id) (g := id) (l := xs)
  rwa [List.map_id] at h

namespace AttnMetadata.Built

variable {metadata : AttnMetadata} {members : List (UInt32 × UInt32)}

theorem describes (h : metadata.Built members) : metadata.Describes members := by
  cases h with
  | decode contextLens blockTable slotMapping =>
    exact describes_buildDecodeMetadata contextLens blockTable slotMapping
  | prefill lengths slotMapping =>
    have h := describes_buildPrefillMetadata lengths lengths slotMapping
    rwa [zip_self] at h
  | continuedPrefill members blockTable slotMapping =>
    have h := describes_buildContinuedPrefillMetadata (members.map Prod.fst) (members.map Prod.snd)
      blockTable slotMapping
    rwa [List.zip_map', List.map_id''] at h
    exact fun _ => rfl

/-- The longest member has no more queries than the longest one has keys. -/
theorem max_le_max (h : metadata.Built members) (hcausal : Causal members) (hne : members ≠ []) :
    metadata.maxSeqlenQ ≤ metadata.maxSeqlenK := by
  have hmem := h.describes.le_maxSeqlenK
  cases h with
  | decode contextLens blockTable slotMapping =>
    obtain ⟨member, hmember⟩ := List.exists_mem_of_ne_nil _ hne
    have hle := hmem member hmember
    obtain ⟨hpos, hcausal⟩ := hcausal member hmember
    exact hpos.trans (hcausal.trans hle)
  | prefill lengths slotMapping =>
    show maxLength ((lengths.zip lengths).map Prod.fst) ≤ maxLength ((lengths.zip lengths).map Prod.snd)
    rw [zip_self, List.map_map, List.map_map]
    rfl
  | continuedPrefill members blockTable slotMapping =>
    refine maxLength_le fun length hlength => ?_
    rw [List.zip_map', List.map_map] at hlength
    obtain ⟨member, hmember, rfl⟩ := List.mem_map.mp hlength
    exact (hcausal member hmember).2.trans (hmem member hmember)

end AttnMetadata.Built

/-- Prefix sums that are monotone fit. -/
theorem total_lt_of_monotone {start : UInt32} {lengths : List UInt32}
    (h : ∀ pair ∈ windows (cumulative start lengths), pair.1 ≤ pair.2) :
    start.toNat + total lengths < 4294967296 := by
  induction lengths generalizing start with
  | nil => exact start.toNat_lt
  | cons length rest ih =>
    rw [windows_cumulative_cons] at h
    have hfirst := h _ List.mem_cons_self
    have hrest := ih fun pair hpair => h pair (List.mem_cons_of_mem _ hpair)
    have hfits : start.toNat + length.toNat < 4294967296 := by
      by_contra hwrap
      have hstart := start.toNat_lt
      have hlength := length.toNat_lt
      have hmod : (start + length).toNat = start.toNat + length.toNat - 4294967296 := by
        rw [UInt32.toNat_add]
        omega
      have hfirst : start.toNat ≤ (start + length).toNat := UInt32.le_iff_toNat_le.mp hfirst
      omega
    rw [toNat_add_of_lt hfits] at hrest
    rw [total_cons]
    omega

/-! ### Prepared forms -/

namespace PreparedAttention

/-- The real rows of a layout. -/
def rowsOfLayout (metadata : AttnMetadata) (rectangular : Bool) : Option (List ℕ) :=
  if rectangular = true ∧
      (metadata.cuSeqlensQ.length - 1) * metadata.maxSeqlenQ ≠ metadata.slotMapping.length then
    some (realRowIndices metadata.maxSeqlenQ 0 (memberLengths metadata.cuSeqlensQ))
  else none

/-- The prepared form of some metadata, with any layout and, if it is packed, with chunks of any
size for its members, over all heads or head by head. -/
structure LayoutOf (prepared : PreparedAttention) (metadata : AttnMetadata) : Prop where
  logical : prepared.logical = metadata
  valid : validateLogicalMetadata metadata = .ok ()
  blockTable : prepareBlockTable metadata.blockTable = .ok prepared.blockTable
  realRows : prepared.realRows = rowsOfLayout metadata prepared.rectangular
  packedWork : prepared.rectangular = false → ∀ member < metadata.cuSeqlensQ.length - 1,
    ∃ work, prepared.packedWork[member]? = some work ∧ 0 < work.queryChunk

theorem reduceChunk_pos {limits : MathLimits} {queries keys budget rounds chunk : ℕ}
    (h : 0 < chunk) : 0 < limits.reduceChunk queries keys budget rounds chunk := by
  induction rounds generalizing chunk with
  | zero => exact h
  | succ rounds ih =>
    rw [MathLimits.reduceChunk]
    split
    · refine ih ?_
      rw [divCeil_eq (by omega)]
      omega
    · exact h

theorem standard_queryChunk_pos (queries : ℕ) : 0 < (QueryWork.standard queries).queryChunk := by
  rw [QueryWork.standard]
  dsimp only
  split
  · omega
  · omega

theorem queryChunk_pos {limits : MathLimits} {budget queries keys : ℕ} {work : QueryWork}
    (h : limits.memberWork budget queries keys = .ok work) : 0 < work.queryChunk := by
  rw [MathLimits.memberWork] at h
  split at h
  · cases h
    exact standard_queryChunk_pos queries
  · dsimp only at h
    split at h
    · cases h
      exact reduceChunk_pos (by omega)
    · cases h

theorem work_of_layout {limits : MathLimits} {metadata : AttnMetadata} {work : List QueryWork}
    (h : limits.layout metadata = .ok (false, work)) {member : ℕ}
    (hq : member < metadata.cuSeqlensQ.length - 1)
    (hk : member < metadata.cuSeqlensK.length - 1) :
    ∃ w, work[member]? = some w ∧ 0 < w.queryChunk := by
  rw [MathLimits.layout] at h
  split at h
  · cases h
  · split at h
    · cases h
    · split at h
      · cases h
      · obtain ⟨works, hworks, h⟩ := exists_of_bind_ok h
        cases h
        have hall := List.forall₂_iff_get.mp (forall₂_of_mapM_ok hworks)
        have hlength : member < ((memberLengths metadata.cuSeqlensQ).zip
            (memberLengths metadata.cuSeqlensK)).length := by
          rw [List.length_zip, length_memberLengths, length_memberLengths]
          omega
        have hlt : member < work.length := by rw [← hall.1]; exact hlength
        exact ⟨_, List.getElem?_eq_getElem hlt, queryChunk_pos (hall.2 member hlength hlt)⟩

end PreparedAttention

/-- What valid metadata satisfy. -/
structure AttnMetadata.Valid (metadata : AttnMetadata) : Prop where
  length_eq : metadata.cuSeqlensQ.length = metadata.cuSeqlensK.length
  head_q : metadata.cuSeqlensQ.head? = some 0
  head_k : metadata.cuSeqlensK.head? = some 0
  monotone_q : ∀ pair ∈ windows metadata.cuSeqlensQ, pair.1 ≤ pair.2
  monotone_k : ∀ pair ∈ windows metadata.cuSeqlensK, pair.1 ≤ pair.2
  le_max_q : ∀ length ∈ memberLengths metadata.cuSeqlensQ, length.toNat ≤ metadata.maxSeqlenQ
  le_max_k : ∀ length ∈ memberLengths metadata.cuSeqlensK, length.toNat ≤ metadata.maxSeqlenK
  slots : metadata.slotMapping.length = (metadata.cuSeqlensQ.getLast?.getD 0).toNat
  table : metadata.blockTable ≠ [] → metadata.blockTable.length = metadata.cuSeqlensQ.length - 1

theorem AttnMetadata.valid {metadata : AttnMetadata}
    (h : validateLogicalMetadata metadata = .ok ()) : metadata.Valid := by
  simp only [validateLogicalMetadata] at h
  split at h
  · cases h
  split at h
  · cases h
  rename_i hlength
  split at h
  · cases h
  rename_i hheads
  split at h
  · cases h
  rename_i hmonotone
  split at h
  · cases h
  rename_i hmax
  split at h
  · cases h
  rename_i hslots
  split at h
  · cases h
  split at h
  · cases h
  rename_i htable
  rw [not_or, not_not, not_not] at hheads
  rw [Bool.not_eq_true, Bool.or_eq_false_iff, Bool.not_eq_false', Bool.not_eq_false', List.all_eq_true,
    List.all_eq_true] at hmonotone
  rw [Bool.not_eq_true, Bool.or_eq_false_iff, List.any_eq_false, List.any_eq_false] at hmax
  refine ⟨not_not.mp hlength, hheads.1, hheads.2,
    fun pair hpair => of_decide_eq_true (hmonotone.1 pair hpair),
    fun pair hpair => of_decide_eq_true (hmonotone.2 pair hpair), fun length hmem => ?_,
    fun length hmem => ?_, not_not.mp hslots, fun hne => ?_⟩
  · by_contra hbad
    exact hmax.1 length hmem (decide_eq_true (not_le.mp hbad))
  · by_contra hbad
    exact hmax.2 length hmem (decide_eq_true (not_le.mp hbad))
  · by_contra hbad
    exact htable ⟨hne, hbad⟩

namespace PreparedAttention

/-- **Preparing metadata fixes a layout of it.** -/
theorem layoutOf_prepareWithLimits {metadata : AttnMetadata} {limits : Option MathLimits}
    {prepared : PreparedAttention} (h : prepareWithLimits metadata limits = .ok prepared) :
    prepared.LayoutOf metadata := by
  rw [prepareWithLimits] at h
  obtain ⟨_, hvalid, h⟩ := exists_of_bind_ok h
  have hlengths := (AttnMetadata.valid hvalid).length_eq
  cases limits with
  | none =>
    obtain ⟨⟨rectangular, work⟩, hlayout, h⟩ := exists_of_bind_ok h
    cases hlayout
    change (if ((rowsOfLayout metadata false).getD []).any _ = true then _ else _) = _ at h
    split at h
    · cases h
    obtain ⟨table, htable, h⟩ := exists_of_bind_ok h
    cases h
    refine ⟨rfl, hvalid, htable, rfl, fun _ member hmember => ?_⟩
    have hlt : member < (memberLengths metadata.cuSeqlensQ).length := by
      rw [length_memberLengths]
      exact hmember
    refine ⟨_, ?_, standard_queryChunk_pos ((memberLengths metadata.cuSeqlensQ)[member]).toNat⟩
    rw [List.getElem?_map, List.getElem?_eq_getElem hlt]
    rfl
  | some limits =>
    obtain ⟨⟨rectangular, work⟩, hlayout, h⟩ := exists_of_bind_ok h
    change (if ((rowsOfLayout metadata rectangular).getD []).any _ = true then _ else _) = _ at h
    split at h
    · cases h
    obtain ⟨table, htable, h⟩ := exists_of_bind_ok h
    cases h
    refine ⟨rfl, hvalid, htable, rfl, ?_⟩
    rintro rfl member hmember
    obtain ⟨_, _, hlayout⟩ := exists_of_bind_ok hlayout
    obtain ⟨_, _, hlayout⟩ := exists_of_bind_ok hlayout
    exact work_of_layout hlayout hmember (by rw [← hlengths]; exact hmember)

end PreparedAttention

/-! ### Members of a prepared form -/

/-- A batch: valid metadata of causal members, and at least one of them. -/
structure Batch (metadata : AttnMetadata) (members : List (UInt32 × UInt32)) : Prop where
  built : metadata.Built members
  causal : Causal members
  nonempty : members ≠ []
  valid : validateLogicalMetadata metadata = .ok ()

namespace Batch

variable {metadata : AttnMetadata} {members : List (UInt32 × UInt32)} (h : Batch metadata members)
include h

theorem length_q : metadata.cuSeqlensQ.length = members.length + 1 := by
  rw [h.built.describes.cuSeqlensQ, length_cumulative, List.length_map]

theorem total_q : total (members.map Prod.fst) < 4294967296 := by
  have hmonotone := (AttnMetadata.valid h.valid).monotone_q
  rw [h.built.describes.cuSeqlensQ] at hmonotone
  have := total_lt_of_monotone hmonotone
  simpa using this

theorem length_slots : metadata.slotMapping.length = total (members.map Prod.fst) := by
  rw [(AttnMetadata.valid h.valid).slots, h.built.describes.cuSeqlensQ,
    toNat_getLast?_cumulative (by simpa using h.total_q)]
  simp

theorem memberLength_q {m : ℕ} {member : UInt32 × UInt32} (hm : members[m]? = some member) :
    memberLength metadata.cuSeqlensQ m = member.1.toNat := by
  rw [h.built.describes.cuSeqlensQ]
  exact memberLength_cumulative (by rw [List.getElem?_map, hm]; rfl)

theorem memberLength_k {m : ℕ} {member : UInt32 × UInt32} (hm : members[m]? = some member) :
    memberLength metadata.cuSeqlensK m = member.2.toNat := by
  rw [h.built.describes.cuSeqlensK]
  exact memberLength_cumulative (by rw [List.getElem?_map, hm]; rfl)

theorem toNat_cuSeqlensQ {m : ℕ} (hm : m ≤ members.length) :
    (metadata.cuSeqlensQ.getD m 0).toNat = firstRow (members.map Prod.fst) m := by
  rw [h.built.describes.cuSeqlensQ, toNat_cumulative (by simpa using hm) (by simpa using h.total_q)]
  simp

theorem maxSeqlenQ_pos : 0 < metadata.maxSeqlenQ := by
  obtain ⟨member, hmember⟩ := List.exists_mem_of_ne_nil _ h.nonempty
  have := (h.causal member hmember).1
  have := h.built.describes.le_maxSeqlenQ member hmember
  omega

theorem length_pos : 0 < members.length :=
  List.length_pos_of_ne_nil h.nonempty

/-- The whole batch fits the rows and columns of its longest members. -/
theorem fits {prepared : PreparedAttention} (hlogical : prepared.logical = metadata) :
    Fits prepared 0 members.length metadata.maxSeqlenQ metadata.maxSeqlenK := by
  have hget : ∀ m < members.length, ∃ member, members[m]? = some member ∧ member ∈ members :=
    fun m hm => ⟨_, List.getElem?_eq_getElem hm, List.getElem_mem hm⟩
  refine
    { member_lt := by rw [hlogical, h.length_q]; omega
      le_queries := fun m hm => ?_
      le_keys := fun m hm => ?_
      causal := fun m hm => ?_
      queries_le := h.built.max_le_max h.causal h.nonempty
      queries_pos := h.maxSeqlenQ_pos }
  · obtain ⟨member, hmember, hmem⟩ := hget m hm
    rw [Nat.zero_add, hlogical, h.memberLength_q hmember]
    exact h.built.describes.le_maxSeqlenQ member hmem
  · obtain ⟨member, hmember, hmem⟩ := hget m hm
    rw [Nat.zero_add, hlogical, h.memberLength_k hmember]
    exact h.built.describes.le_maxSeqlenK member hmem
  · obtain ⟨member, hmember, hmem⟩ := hget m hm
    rw [Nat.zero_add, hlogical, h.memberLength_q hmember, h.memberLength_k hmember]
    exact (h.causal member hmem).2

end Batch

/-! ### Padding -/

/-- The row of a member's query in a layout: in a rectangular one, members stand at the end of parts
of equal length. -/
def layoutRow (metadata : AttnMetadata) (rectangular : Bool) (m row : ℕ) : ℕ :=
  if rectangular then
    m * metadata.maxSeqlenQ + (metadata.maxSeqlenQ - memberLength metadata.cuSeqlensQ m) + row
  else (metadata.cuSeqlensQ.getD m 0).toNat + row

/-- The number of rows of a layout. -/
def layoutRows (metadata : AttnMetadata) (rectangular : Bool) : ℕ :=
  if rectangular then (metadata.cuSeqlensQ.length - 1) * metadata.maxSeqlenQ
  else metadata.slotMapping.length

theorem length_realRowIndices (maxSeqlenQ start : ℕ) (lengths : List UInt32) :
    (PreparedAttention.realRowIndices maxSeqlenQ start lengths).length = total lengths := by
  induction lengths generalizing start with
  | nil => rfl
  | cons length rest ih =>
    rw [PreparedAttention.realRowIndices, List.length_append, List.length_map, List.length_range, ih,
      total_cons]

/-- The real rows are those of the members, in order. -/
theorem getElem?_realRowIndices {maxSeqlenQ start m row : ℕ} {lengths : List UInt32} {length : UInt32}
    (hm : lengths[m]? = some length) (hrow : row < length.toNat) :
    (PreparedAttention.realRowIndices maxSeqlenQ start lengths)[firstRow lengths m + row]? =
      some ((start + m) * maxSeqlenQ + maxSeqlenQ - length.toNat + row) := by
  induction lengths generalizing start m with
  | nil => simp at hm
  | cons first rest ih =>
    rw [PreparedAttention.realRowIndices]
    cases m with
    | zero =>
      obtain rfl : first = length := by simpa using hm
      rw [firstRow_zero, Nat.zero_add, List.getElem?_append_left (by simpa using hrow),
        List.getElem?_map, List.getElem?_range hrow]
      rfl
    | succ m =>
      rw [firstRow_succ_cons, List.getElem?_append_right (by simp; omega), List.length_map,
        List.length_range]
      have hplace : first.toNat + firstRow rest m + row - first.toNat = firstRow rest m + row := by
        omega
      rw [hplace, ih (by simpa using hm), Nat.add_right_comm, Nat.add_assoc start m 1]

theorem windows_eq (cuSeqlens : List UInt32) :
    windows cuSeqlens = (List.range (cuSeqlens.length - 1)).map fun m =>
      (cuSeqlens.getD m 0, cuSeqlens.getD (m + 1) 0) := by
  refine List.ext_getElem (by rw [windows]; simp) fun m hm hm' => ?_
  have hlt : m < cuSeqlens.length - 1 := by simpa using hm'
  have hnext : m + 1 < cuSeqlens.length := by omega
  simp [windows, List.getElem?_eq_getElem hnext, List.getElem?_eq_getElem (show m < cuSeqlens.length by omega)]

/-- Lengths with the largest possible sum are all equal. -/
theorem lengths_eq_of_total (lengths : List UInt32) (bound : ℕ)
    (hle : ∀ length ∈ lengths, length.toNat ≤ bound) (htotal : lengths.length * bound ≤ total lengths) :
    ∀ {m : ℕ} {length : UInt32}, lengths[m]? = some length →
      length.toNat = bound ∧ firstRow lengths m = m * bound := by
  induction lengths with
  | nil =>
    intro m length hm
    simp at hm
  | cons first rest ih =>
    have hbound : ∀ lengths : List UInt32, (∀ length ∈ lengths, length.toNat ≤ bound) →
        total lengths ≤ lengths.length * bound := by
      intro lengths
      induction lengths with
      | nil => exact fun _ => Nat.zero_le _
      | cons first rest ih =>
        intro h
        have hrest := ih fun length hlength => h length (List.mem_cons_of_mem _ hlength)
        have hfirst := h first List.mem_cons_self
        rw [total_cons, List.length_cons, Nat.succ_mul]
        omega
    have hrest := hbound rest fun length hlength => hle length (List.mem_cons_of_mem _ hlength)
    have hfirst := hle first List.mem_cons_self
    rw [total_cons, List.length_cons, Nat.succ_mul] at htotal
    intro m length hm
    cases m with
    | zero =>
      obtain rfl : first = length := by simpa using hm
      exact ⟨by omega, by rw [firstRow_zero, Nat.zero_mul]⟩
    | succ m =>
      obtain ⟨hlength, hrow⟩ := ih (fun length hlength => hle length (List.mem_cons_of_mem _ hlength))
        (by omega) (m := m) (by simpa using hm)
      refine ⟨hlength, ?_⟩
      rw [firstRow_succ_cons, hrow, Nat.succ_mul]
      omega

namespace Tensor

variable {R : Type} [Zero R]

/-- Some rows of a tensor. -/
theorem narrow_rows {t : Tensor R} {count start len : ℕ} {rest : List ℕ} (hdims : t.dims = count :: rest)
    (h : start + len ≤ count) :
    t.narrow 0 start len = .ok (ofFn (len :: rest) fun index => t.get (index.modify 0 (start + ·))) := by
  rw [narrow, hdims, if_neg (by simp [h])]
  rfl

/-- Rows of zeros before some rows of a tensor. -/
theorem padWithZeros_rows {t : Tensor R} {left count : ℕ} {rest : List ℕ}
    (hdims : t.dims = count :: rest) {f : List ℕ → R}
    (hleft : ∀ i index, i < left → f (i :: index) = 0)
    (hrows : ∀ i index, InBounds (count :: rest) (i :: index) → t.get (i :: index) = f ((left + i) :: index)) :
    t.padWithZeros left 0 = .ok (ofFn ((left + count) :: rest) f) := by
  rw [padWithZeros]
  split
  · rename_i hnil
    rw [hnil] at hdims
    cases hdims
  · rename_i count' rest' hcons
    rw [hcons] at hdims
    cases hdims
    refine congrArg Except.ok (ofFn_congr fun index hindex => ?_)
    cases index with
    | nil => exact absurd hindex not_inBounds_cons_nil
    | cons i index =>
      obtain ⟨hi, hindex⟩ := inBounds_cons.mp hindex
      dsimp only
      split
      · rename_i hpadding
        exact (hleft i index (by omega)).symm
      · rw [hrows _ _ (inBounds_cons.mpr ⟨by omega, hindex⟩), Nat.add_sub_cancel' (by omega)]

end Tensor

/-- Every packed row is one of a member. -/
theorem Batch.exists_row {metadata : AttnMetadata} {members : List (UInt32 × UInt32)}
    (batch : Batch metadata members) {n : ℕ} (hn : n < metadata.slotMapping.length) :
    ∃ m member row, members[m]? = some member ∧ row < member.1.toNat ∧
      n = layoutRow metadata false m row := by
  rw [batch.length_slots] at hn
  obtain ⟨m, length, row, hm, hrow, rfl⟩ := VllmOxide.exists_row hn
  rw [List.getElem?_map] at hm
  obtain ⟨member, hmember, rfl⟩ := Option.map_eq_some_iff.mp hm
  have hlt := (List.getElem?_eq_some_iff.mp hmember).1
  refine ⟨m, member, row, hmember, hrow, ?_⟩
  show _ = (metadata.cuSeqlensQ.getD m 0).toNat + row
  rw [batch.toNat_cuSeqlensQ (by omega)]

namespace PreparedAttention.LayoutOf

variable {metadata : AttnMetadata} {members : List (UInt32 × UInt32)} {prepared : PreparedAttention}
  {R : Type} [Zero R]

/-- A row of a member is a row of the layout. -/
theorem layoutRow_lt (batch : Batch metadata members) (rectangular : Bool) {m row : ℕ}
    {member : UInt32 × UInt32} (hm : members[m]? = some member) (hrow : row < member.1.toNat) :
    layoutRow metadata rectangular m row < layoutRows metadata rectangular := by
  have hlt := (List.getElem?_eq_some_iff.mp hm).1
  have hle := batch.built.describes.le_maxSeqlenQ member (List.mem_of_getElem? hm)
  have hfirst : (members.map Prod.fst)[m]? = some member.1 := by rw [List.getElem?_map, hm]; rfl
  rw [layoutRow, layoutRows]
  split
  · rw [batch.memberLength_q hm, batch.length_q, Nat.add_sub_cancel]
    calc m * metadata.maxSeqlenQ + (metadata.maxSeqlenQ - member.1.toNat) + row
        < (m + 1) * metadata.maxSeqlenQ := by rw [Nat.succ_mul]; omega
      _ ≤ members.length * metadata.maxSeqlenQ := Nat.mul_le_mul_right _ hlt
  · rw [batch.toNat_cuSeqlensQ (by omega), batch.length_slots]
    have := firstRow_add_le hfirst
    omega

/-- Without padding a rectangular layout has the rows of the packed one. -/
theorem layoutRow_eq_of_full (batch : Batch metadata members)
    (hfull : (metadata.cuSeqlensQ.length - 1) * metadata.maxSeqlenQ = metadata.slotMapping.length)
    {m : ℕ} {member : UInt32 × UInt32} (hm : members[m]? = some member) (row : ℕ) :
    layoutRow metadata true m row = layoutRow metadata false m row := by
  have hlt := (List.getElem?_eq_some_iff.mp hm).1
  have hfirst : (members.map Prod.fst)[m]? = some member.1 := by rw [List.getElem?_map, hm]; rfl
  rw [batch.length_q, Nat.add_sub_cancel, batch.length_slots] at hfull
  obtain ⟨hlength, hrow⟩ := lengths_eq_of_total (members.map Prod.fst) metadata.maxSeqlenQ
    (fun length hlength => by
      obtain ⟨member, hmember, rfl⟩ := List.mem_map.mp hlength
      exact batch.built.describes.le_maxSeqlenQ member hmember)
    (by rw [List.length_map, hfull]) hfirst
  show m * metadata.maxSeqlenQ + (metadata.maxSeqlenQ - memberLength metadata.cuSeqlensQ m) + row =
    (metadata.cuSeqlensQ.getD m 0).toNat + row
  rw [batch.memberLength_q hm, batch.toNat_cuSeqlensQ (by omega), hrow, hlength]
  omega

/-- **Unpadding** reads the packed rows off the rows of the layout. -/
theorem exists_unpadQueries (h : prepared.LayoutOf metadata) (batch : Batch metadata members)
    (rest : List ℕ) {t : Tensor R} (hdims : t.dims = layoutRows metadata prepared.rectangular :: rest) :
    ∃ out, prepared.unpadQueries t = .ok out ∧ out.dims = metadata.slotMapping.length :: rest ∧
      ∀ {m row : ℕ} {member : UInt32 × UInt32} {index : List ℕ}, members[m]? = some member →
        row < member.1.toNat → InBounds rest index →
        out.get (layoutRow metadata false m row :: index) =
          t.get (layoutRow metadata prepared.rectangular m row :: index) := by
  have hrows := h.realRows
  rw [rowsOfLayout] at hrows
  rw [unpadQueries]
  split at hrows
  · rename_i hpadded
    rw [hrows]
    dsimp only
    have hdescribes := batch.built.describes
    have hlength : (realRowIndices metadata.maxSeqlenQ 0 (memberLengths metadata.cuSeqlensQ)).length =
        metadata.slotMapping.length := by
      rw [length_realRowIndices, hdescribes.memberLengths_q, batch.length_slots]
    have hrow : ∀ {m row : ℕ} {member : UInt32 × UInt32}, members[m]? = some member →
        row < member.1.toNat →
        (realRowIndices metadata.maxSeqlenQ 0 (memberLengths metadata.cuSeqlensQ))[
          layoutRow metadata false m row]? = some (layoutRow metadata true m row) := by
      intro m row member hm hrow
      have hlt := (List.getElem?_eq_some_iff.mp hm).1
      have hle := hdescribes.le_maxSeqlenQ member (List.mem_of_getElem? hm)
      have hfirst : (members.map Prod.fst)[m]? = some member.1 := by rw [List.getElem?_map, hm]; rfl
      show (realRowIndices _ 0 _)[(metadata.cuSeqlensQ.getD m 0).toNat + row]? = some
        (m * metadata.maxSeqlenQ + (metadata.maxSeqlenQ - memberLength metadata.cuSeqlensQ m) + row)
      rw [batch.toNat_cuSeqlensQ (by omega), hdescribes.memberLengths_q,
        getElem?_realRowIndices hfirst hrow, batch.memberLength_q hm, Nat.zero_add]
      refine congrArg some ?_
      omega
    have hbounds : ∀ row ∈ realRowIndices metadata.maxSeqlenQ 0 (memberLengths metadata.cuSeqlensQ),
        row < layoutRows metadata prepared.rectangular := by
      intro row hmem
      obtain ⟨n, hn, rfl⟩ := List.getElem_of_mem hmem
      rw [hlength] at hn
      obtain ⟨m, member, r, hmember, hr, rfl⟩ := batch.exists_row hn
      rw [(List.getElem?_eq_some_iff.mp (hrow hmember hr)).2, hpadded.1]
      exact layoutRow_lt batch true hmember hr
    rw [Tensor.indexSelect, hdims]
    dsimp only
    rw [if_neg]
    · refine ⟨_, rfl, by rw [Tensor.dims_ofFn, hlength], fun {m row member index} hm hr hindex => ?_⟩
      have hplace := layoutRow_lt batch false hm hr
      rw [Tensor.get_ofFn (inBounds_cons.mpr ⟨by rw [hlength]; exact hplace, hindex⟩)]
      dsimp only
      rw [List.getD_eq_getElem?_getD, hrow hm hr, hpadded.1]
      rfl
    · rw [List.any_eq_true]
      rintro ⟨row, hmem, hbad⟩
      exact absurd (hbounds row hmem) (not_lt.mpr (of_decide_eq_true hbad))
  · rename_i hpacked
    rw [hrows]
    refine ⟨t, rfl, ?_, fun {m row member index} hm _ _ => ?_⟩
    · rw [hdims, layoutRows]
      split
      · rename_i hrect
        rw [hrect] at hpacked
        rw [not_not.mp fun hne => hpacked ⟨rfl, hne⟩]
      · rfl
    · cases hrect : prepared.rectangular with
      | false => rfl
      | true =>
        rw [hrect] at hpacked
        rw [layoutRow_eq_of_full batch (not_not.mp fun hne => hpacked ⟨rfl, hne⟩) hm]

/-- The entries of the padded rows: each part of a rectangular layout ends with the rows of its
member. -/
def paddedEntry (metadata : AttnMetadata) (t : Tensor R) : List ℕ → R
  | n :: index =>
    let m := n / metadata.maxSeqlenQ
    let padding := metadata.maxSeqlenQ - memberLength metadata.cuSeqlensQ m
    if n % metadata.maxSeqlenQ < padding then 0
    else t.get (((metadata.cuSeqlensQ.getD m 0).toNat + (n % metadata.maxSeqlenQ - padding)) :: index)
  | [] => 0

theorem paddedEntry_cons {metadata : AttnMetadata} (t : Tensor R) {m i : ℕ} (index : List ℕ)
    (hi : i < metadata.maxSeqlenQ) :
    paddedEntry metadata t ((m * metadata.maxSeqlenQ + i) :: index) =
      if i < metadata.maxSeqlenQ - memberLength metadata.cuSeqlensQ m then 0
      else t.get (((metadata.cuSeqlensQ.getD m 0).toNat +
        (i - (metadata.maxSeqlenQ - memberLength metadata.cuSeqlensQ m))) :: index) := by
  have hpos : 0 < metadata.maxSeqlenQ := by omega
  have hdiv : (m * metadata.maxSeqlenQ + i) / metadata.maxSeqlenQ = m := by
    rw [Nat.add_comm, Nat.add_mul_div_right _ _ hpos, Nat.div_eq_of_lt hi, Nat.zero_add]
  have hmod : (m * metadata.maxSeqlenQ + i) % metadata.maxSeqlenQ = i := by
    rw [Nat.add_comm, Nat.add_mul_mod_self_right, Nat.mod_eq_of_lt hi]
  simp only [paddedEntry, hdiv, hmod]

/-- The padded rows of one member. -/
theorem paddedPart_eq (batch : Batch metadata members) {t : Tensor R} {rest : List ℕ}
    (hdims : t.dims = metadata.slotMapping.length :: rest) {m : ℕ} (hm : m < members.length) :
    (do
      let part ← t.narrow 0 (metadata.cuSeqlensQ.getD m 0).toNat (memberLength metadata.cuSeqlensQ m)
      part.padWithZeros (metadata.maxSeqlenQ - memberLength metadata.cuSeqlensQ m) 0) =
    .ok (Tensor.ofFn (metadata.maxSeqlenQ :: rest) fun index =>
      paddedEntry metadata t (index.modify 0 (m * metadata.maxSeqlenQ + ·))) := by
  obtain ⟨member, hmember⟩ : ∃ member, members[m]? = some member := ⟨_, List.getElem?_eq_getElem hm⟩
  have hfirst : (members.map Prod.fst)[m]? = some member.1 := by
    rw [List.getElem?_map, hmember]
    rfl
  have hle := batch.built.describes.le_maxSeqlenQ member (List.mem_of_getElem? hmember)
  have hlength := batch.memberLength_q hmember
  have hwithin := firstRow_add_le hfirst
  rw [← batch.length_slots, ← batch.toNat_cuSeqlensQ hm.le] at hwithin
  rw [hlength, Tensor.narrow_rows hdims hwithin]
  refine (Tensor.padWithZeros_rows
    (f := fun index => paddedEntry metadata t (index.modify 0 (m * metadata.maxSeqlenQ + ·)))
    (Tensor.dims_ofFn _ _) (fun i index hi => ?_) fun i index hindex => ?_).trans ?_
  · show paddedEntry metadata t ((m * metadata.maxSeqlenQ + i) :: index) = 0
    rw [paddedEntry_cons t index (by omega), hlength, if_pos hi]
  · have hi := (inBounds_cons.mp hindex).1
    show _ = paddedEntry metadata t
      ((m * metadata.maxSeqlenQ + (metadata.maxSeqlenQ - member.1.toNat + i)) :: index)
    rw [Tensor.get_ofFn hindex, paddedEntry_cons t index (by omega), hlength, if_neg (by omega)]
    refine congrArg t.get (congrArg (· :: index) ?_)
    show (metadata.cuSeqlensQ.getD m 0).toNat + i = _
    omega
  · rw [Nat.sub_add_cancel hle]

/-- The padded rows of the members, put together. -/
theorem cat_paddedParts (batch : Batch metadata members) (t : Tensor R) (rest : List ℕ) :
    Tensor.cat ((List.range members.length).map fun m =>
        Tensor.ofFn (metadata.maxSeqlenQ :: rest) fun index =>
          paddedEntry metadata t (index.modify 0 (m * metadata.maxSeqlenQ + ·))) 0 =
      .ok (Tensor.ofFn ((members.length * metadata.maxSeqlenQ) :: rest) (paddedEntry metadata t)) := by
  have hcat := Tensor.cat_tiles (0 :: rest) 0
    (List.replicate members.length metadata.maxSeqlenQ) (paddedEntry metadata t) (by simp)
    (by
      rw [Ne, List.replicate_eq_nil_iff]
      have := batch.length_pos
      omega)
  have hsum : (List.replicate members.length metadata.maxSeqlenQ).sum =
      members.length * metadata.maxSeqlenQ := by simp
  rw [tiles_replicate, List.map_map, hsum] at hcat
  refine Eq.trans (congrArg (Tensor.cat · 0) (List.map_congr_left fun m _ => ?_)) hcat
  simp only [Function.comp_apply, Nat.zero_add]
  rfl

/-- **Padding** writes the packed rows to the rows of the layout. -/
theorem exists_padQueries (h : prepared.LayoutOf metadata) (batch : Batch metadata members)
    {t : Tensor R} {rest : List ℕ} (hdims : t.dims = metadata.slotMapping.length :: rest) :
    ∃ out, prepared.padQueries t = .ok out ∧
      out.dims = layoutRows metadata prepared.rectangular :: rest ∧
      ∀ {m row : ℕ} {member : UInt32 × UInt32} {index : List ℕ}, members[m]? = some member →
        row < member.1.toNat → InBounds rest index →
        out.get (layoutRow metadata prepared.rectangular m row :: index) =
          t.get (layoutRow metadata false m row :: index) := by
  have hrows := h.realRows
  rw [rowsOfLayout] at hrows
  split at hrows
  · rename_i hpadded
    have hdim : t.dim 0 = .ok metadata.slotMapping.length := by rw [Tensor.dim, hdims]; rfl
    have hparts : ((windows metadata.cuSeqlensQ).mapM fun pair : UInt32 × UInt32 => do
          let part ← t.narrow 0 pair.1.toNat (pair.2 - pair.1).toNat
          part.padWithZeros (metadata.maxSeqlenQ - (pair.2 - pair.1).toNat) 0) =
        .ok ((List.range members.length).map fun m =>
          Tensor.ofFn (metadata.maxSeqlenQ :: rest) fun index =>
            paddedEntry metadata t (index.modify 0 (m * metadata.maxSeqlenQ + ·))) := by
      rw [windows_eq, batch.length_q, Nat.add_sub_cancel, List.mapM_map]
      exact mapM_eq_ok fun m hm => paddedPart_eq batch hdims (List.mem_range.mp hm)
    have hrun : prepared.padQueries t =
        .ok (Tensor.ofFn ((members.length * metadata.maxSeqlenQ) :: rest) (paddedEntry metadata t)) := by
      rw [padQueries, hrows, h.logical, hdim]
      show (bailIf (metadata.slotMapping.length ≠ metadata.slotMapping.length) _ >>= fun _ =>
        ((windows metadata.cuSeqlensQ).mapM fun pair : UInt32 × UInt32 => do
          let part ← t.narrow 0 pair.1.toNat (pair.2 - pair.1).toNat
          part.padWithZeros (metadata.maxSeqlenQ - (pair.2 - pair.1).toNat) 0) >>= fun parts =>
        Tensor.cat parts 0) = _
      rw [bailIf, if_neg (fun hne => hne rfl), hparts]
      exact cat_paddedParts batch t rest
    refine ⟨_, hrun, ?_, fun {m row member index} hm hrow hindex => ?_⟩
    · rw [hpadded.1, layoutRows, if_pos rfl, batch.length_q]
      rfl
    · have hle := batch.built.describes.le_maxSeqlenQ member (List.mem_of_getElem? hm)
      have hlt := layoutRow_lt batch true hm hrow
      have hplace : layoutRow metadata true m row =
          m * metadata.maxSeqlenQ + (metadata.maxSeqlenQ - member.1.toNat + row) := by
        rw [layoutRow, if_pos rfl, batch.memberLength_q hm, Nat.add_assoc]
      rw [layoutRows, if_pos rfl, batch.length_q, Nat.add_sub_cancel] at hlt
      rw [hpadded.1, Tensor.get_ofFn (inBounds_cons.mpr ⟨hlt, hindex⟩), hplace,
        paddedEntry_cons t index (by omega), batch.memberLength_q hm, if_neg (by omega)]
      refine congrArg t.get (congrArg (· :: index) ?_)
      show _ = (metadata.cuSeqlensQ.getD m 0).toNat + row
      omega
  · rename_i hpacked
    rw [padQueries, hrows]
    refine ⟨t, rfl, ?_, fun {m row member index} hm _ _ => ?_⟩
    · rw [hdims, layoutRows]
      split
      · rename_i hrect
        rw [hrect] at hpacked
        rw [not_not.mp fun hne => hpacked ⟨rfl, hne⟩]
      · rfl
    · cases hrect : prepared.rectangular with
      | false => rfl
      | true =>
        rw [hrect] at hpacked
        rw [layoutRow_eq_of_full batch (not_not.mp fun hne => hpacked ⟨rfl, hne⟩) hm]

/-- **Padding packed rows and dropping the padding again is the identity.** -/
theorem unpad_pad (h : prepared.LayoutOf metadata) (batch : Batch metadata members)
    {t : Tensor R} {rest : List ℕ} (hdims : t.dims = metadata.slotMapping.length :: rest) :
    (prepared.padQueries t >>= prepared.unpadQueries) = .ok t := by
  obtain ⟨padded, hpad, hpaddedDims, hpadded⟩ := h.exists_padQueries batch hdims
  obtain ⟨out, hunpad, houtDims, hout⟩ := h.exists_unpadQueries batch rest hpaddedDims
  rw [hpad]
  show prepared.unpadQueries padded = _
  rw [hunpad]
  refine congrArg Except.ok (Tensor.ext_get (houtDims.trans hdims.symm) fun index hindex => ?_)
  rw [hdims] at hindex
  cases index with
  | nil => exact absurd hindex not_inBounds_cons_nil
  | cons n index =>
    obtain ⟨hn, hrest⟩ := inBounds_cons.mp hindex
    obtain ⟨m, member, row, hm, hrow, rfl⟩ := batch.exists_row hn
    rw [hout hm hrow hrest, hpadded hm hrow hrest]

end PreparedAttention.LayoutOf

end VllmOxide
