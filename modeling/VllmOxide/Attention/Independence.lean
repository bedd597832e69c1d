import Mathlib.Analysis.Complex.Exponential
import Mathlib.Analysis.Real.Sqrt
import VllmOxide.Attention.Budget
import VllmOxide.Attention.Gather

/-!
# Attention is independent of the layout

Whatever layout is chosen for a step, and however its rows are cut into chunks and its heads split,
every query token gets the attention of its logical position: over the keys and values of the
positions up to its own, with those of the group of its head. The rows and columns of padding may
hold anything.

## Main definitions

* `ComputesAttention`: the attention of every query token of a batch.
* `Runnable`: the conditions under which no launch and no cache is refused.

## Main results

* `denseRows_gives`: the rectangular layout, with chunks of any size.
* `packedRows_gives`: the packed layout.
-/

namespace VllmOxide

variable {R : Type} [Field R] [LinearOrder R]

/-- The row of a member's query among the packed rows. -/
def packedRow (members : List (UInt32 × UInt32)) (m row : ℕ) : ℕ :=
  firstRow (members.map Prod.fst) m + row

/-- The attention of every query token of a batch: row `row` of member `m` attends to the logical
positions up to its own, and a query head uses the keys and values of its group. -/
structure ComputesAttention (arithmetic : ExactArithmetic R) (scale : R)
    (members : List (UInt32 × UInt32)) (rows kvHeads group dim : ℕ) (q : Tensor R)
    (key value : ℕ → ℕ → ℕ → ℕ → R) (out : Tensor R) : Prop where
  dims : members ≠ [] → out.dims = [rows, kvHeads * group, dim]
  get : ∀ {m row : ℕ} {member : UInt32 × UInt32} {h d : ℕ}, members[m]? = some member →
    row < member.1.toNat → h < kvHeads * group → d < dim →
    out.get [packedRow members m row, h, d] =
      causalAttention arithmetic.exp (member.2.toNat - member.1.toNat + row)
        (fun position => score scale dim (fun e => q.get [packedRow members m row, h, e])
          (key m position (h / group)))
        fun position => value m position (h / group) d

/-- There is something to compute, and the launches of the step are within the capacity. -/
structure Runnable (metadata : AttnMetadata) (members : List (UInt32 × UInt32))
    (kvHeads group dim : ℕ) : Prop where
  nonempty : members ≠ []
  scores : members.length * (kvHeads * group) * metadata.maxSeqlenQ * metadata.maxSeqlenK ≤
    LAUNCH_CAPACITY
  keys : members.length * metadata.maxSeqlenK * (kvHeads * dim) ≤ LAUNCH_CAPACITY

section

variable {P : Prop} {arithmetic : ExactArithmetic R} {scale : R} {metadata : AttnMetadata}
  {members : List (UInt32 × UInt32)} {prepared : PreparedAttention} {kvHeads group dim : ℕ}

theorem layoutRow_false (batch : Batch metadata members) {m row : ℕ} (hm : m < members.length) :
    layoutRow metadata false m row = packedRow members m row := by
  show (metadata.cuSeqlensQ.getD m 0).toNat + row = _
  rw [batch.toNat_cuSeqlensQ hm.le, packedRow]

/-- A tensor with three axes whose first one is split in two. -/
def Tensor.split (t : Tensor R) (a b c d : ℕ) : Tensor R :=
  Tensor.ofFn4 a b c d fun i j k l => t.get [i * b + j, k, l]

omit [LinearOrder R] in
theorem Tensor.reshape_eq_split {t : Tensor R} {a b c d : ℕ} (h : t.dims = [a * b, c, d]) :
    t.reshape [a, b, c, d] = .ok (t.split a b c d) := by
  conv_lhs => rw [Tensor.eq_ofFn3 h]
  exact Tensor.reshape_split _

/-- **The rectangular layout**, with chunks of any size: what stands in the rows and columns of
padding does not matter. -/
theorem denseRows_gives (h : prepared.LayoutOf metadata) (batch : Batch metadata members)
    (hrect : prepared.rectangular = true) (hkvHeads : 0 < kvHeads) (hgroup : 0 < group)
    (hscale : 0 < scale) {rows q : Tensor R}
    (hrows : rows.dims = [members.length * metadata.maxSeqlenQ, kvHeads * group, dim])
    (hq : prepared.unpadQueries rows = .ok q) {fk fv key value : ℕ → ℕ → ℕ → ℕ → R}
    (hkey : ∀ m member position h d, members[m]? = some member → position < member.2.toNat →
      h < kvHeads → d < dim →
      fk m (metadata.maxSeqlenK - member.2.toNat + position) h d = key m position h d ∧
        fv m (metadata.maxSeqlenK - member.2.toNat + position) h d = value m position h d)
    {chunk : ℕ} (hchunk : 0 < chunk)
    (hlaunch : P → members.length * (kvHeads * group) * metadata.maxSeqlenQ * metadata.maxSeqlenK ≤
      LAUNCH_CAPACITY) :
    Gives P
      (dense arithmetic (rows.split members.length metadata.maxSeqlenQ (kvHeads * group) dim)
          (Tensor.ofFn4 members.length metadata.maxSeqlenK kvHeads dim fk)
          (Tensor.ofFn4 members.length metadata.maxSeqlenK kvHeads dim fv) prepared scale 0 chunk >>=
        prepared.unpadQueries)
      (ComputesAttention arithmetic scale members metadata.slotMapping.length kvHeads group dim q key
        value) := by
  have hheads : 0 < kvHeads * group := Nat.mul_pos hkvHeads hgroup
  have hpos := batch.maxSeqlenQ_pos
  have hkeysPos := hpos.trans_le (batch.built.max_le_max batch.causal batch.nonempty)
  have hsize : P → 0 + members.length ≤ USIZE_MAX := by
    intro hP
    rw [Nat.zero_add]
    refine le_trans ?_ ((hlaunch hP).trans LAUNCH_CAPACITY_le)
    rw [Nat.mul_assoc, Nat.mul_assoc]
    exact Nat.le_mul_of_pos_right _ (Nat.mul_pos hheads (Nat.mul_pos hpos hkeysPos))
  have hlayout : layoutRows metadata prepared.rectangular = members.length * metadata.maxSeqlenQ := by
    rw [hrect, layoutRows, if_pos rfl, batch.length_q, Nat.add_sub_cancel]
  obtain ⟨q', hq', -, hqget⟩ := h.exists_unpadQueries batch [kvHeads * group, dim]
    (t := rows) (by rw [hlayout, hrows])
  rw [hq] at hq'
  cases hq'
  refine Gives.bindEq (dense_gives _ fk fv (batch.fits h.logical) batch.length_pos hkvHeads hgroup hchunk
    hscale hlaunch hsize) ?_
  obtain ⟨out, hout, houtDims, hget⟩ := h.exists_unpadQueries batch [kvHeads * group, dim]
    (t := Tensor.ofFn3 (members.length * metadata.maxSeqlenQ) (kvHeads * group) dim fun n h d =>
        rowOutput arithmetic.exp prepared metadata.maxSeqlenQ metadata.maxSeqlenK
          (0 + n / metadata.maxSeqlenQ) (n % metadata.maxSeqlenQ)
          (fun column => score scale dim
            (fun e => rows.get [n / metadata.maxSeqlenQ * metadata.maxSeqlenQ + n % metadata.maxSeqlenQ,
              h, e]) (fk (n / metadata.maxSeqlenQ) column (h / group)))
          fun column => fv (n / metadata.maxSeqlenQ) column (h / group) d) (by rw [hlayout]; rfl)
  refine Gives.of_eq_ok hout ⟨fun _ => houtDims, fun {m row member head d} hm hrow hhead hd => ?_⟩
  have hlt := (List.getElem?_eq_some_iff.mp hm).1
  have hmem := List.mem_of_getElem? hm
  have hle := batch.built.describes.le_maxSeqlenQ member hmem
  have hleK := batch.built.describes.le_maxSeqlenK member hmem
  have hcausal := (batch.causal member hmem).2
  have hindex : InBounds [kvHeads * group, dim] [head, d] := by simp [hhead, hd]
  have hplace := PreparedAttention.LayoutOf.layoutRow_lt batch true hm hrow
  have hlayoutRow : layoutRow metadata true m row =
      m * metadata.maxSeqlenQ + (metadata.maxSeqlenQ - member.1.toNat + row) := by
    rw [layoutRow, if_pos rfl, batch.memberLength_q hm, Nat.add_assoc]
  rw [hrect] at hlayout
  rw [hlayout] at hplace
  have hdiv : layoutRow metadata true m row / metadata.maxSeqlenQ = m := by
    rw [hlayoutRow, Nat.add_comm, Nat.add_mul_div_right _ _ hpos, Nat.div_eq_of_lt (by omega),
      Nat.zero_add]
  have hmod : layoutRow metadata true m row % metadata.maxSeqlenQ =
      metadata.maxSeqlenQ - member.1.toNat + row := by
    rw [hlayoutRow, Nat.add_comm, Nat.add_mul_mod_self_right, Nat.mod_eq_of_lt (by omega)]
  have hjoin : m * metadata.maxSeqlenQ + (metadata.maxSeqlenQ - member.1.toNat + row) =
      layoutRow metadata true m row := hlayoutRow.symm
  rw [← layoutRow_false batch hlt, hget hm hrow hindex, hrect, Tensor.get_ofFn3 hplace hhead hd, hdiv,
    hmod, Nat.zero_add, rowOutput, rowPosition, keyPadding, queryPadding, h.logical,
    batch.memberLength_q hm, batch.memberLength_k hm, if_neg (by omega), Nat.add_sub_cancel_left, hjoin]
  have hkvHead : head / group < kvHeads := (Nat.div_lt_iff_lt_mul hgroup).mpr hhead
  refine causalAttention_congr (fun position hposition => ?_) fun position hposition => ?_
  · refine congrArg _ (Finset.sum_congr rfl fun e he => ?_)
    have he : e < dim := Finset.mem_range.mp he
    have hqrow := hqget hm hrow (show InBounds [kvHeads * group, dim] [head, e] by simp [hhead, he])
    dsimp only
    rw [hqrow, hrect, (hkey m member position _ e hm (by omega) hkvHead he).1]
  · exact (hkey m member position _ d hm (by omega) hkvHead hd).2

/-! ### The packed layout -/

omit [LinearOrder R] in
/-- A packed layout has no padding. -/
theorem PreparedAttention.LayoutOf.unpad_of_packed (h : prepared.LayoutOf metadata)
    (hpacked : prepared.rectangular = false) (t : Tensor R) : prepared.unpadQueries t = .ok t := by
  have hreal : prepared.realRows = none := by
    rw [h.realRows, hpacked]
    exact if_neg fun hbad => Bool.noConfusion hbad.1
  rw [PreparedAttention.unpadQueries, hreal]

omit [LinearOrder R] in
theorem PreparedAttention.LayoutOf.bind_unpad_of_packed (h : prepared.LayoutOf metadata)
    (hpacked : prepared.rectangular = false) (x : Except String (Tensor R)) :
    (x >>= prepared.unpadQueries) = x := by
  cases x with
  | error e => rfl
  | ok t => exact h.unpad_of_packed hpacked t

/-- The member and the row within it of a packed row. -/
def locate : (lengths : List UInt32) → ℕ → ℕ × ℕ
  | [], n => (0, n)
  | length :: rest, n =>
    if n < length.toNat then (0, n)
    else
      let (m, row) := locate rest (n - length.toNat)
      (m + 1, row)

theorem locate_firstRow {lengths : List UInt32} {length : UInt32} {m row : ℕ}
    (hm : lengths[m]? = some length) (hrow : row < length.toNat) :
    locate lengths (firstRow lengths m + row) = (m, row) := by
  induction lengths generalizing m with
  | nil => simp at hm
  | cons first rest ih =>
    cases m with
    | zero =>
      obtain rfl : first = length := by simpa using hm
      rw [firstRow_zero, Nat.zero_add, locate, if_pos hrow]
    | succ m =>
      have hplace : first.toNat + firstRow rest m + row - first.toNat = firstRow rest m + row := by
        omega
      rw [firstRow_succ_cons, locate, if_neg (by omega), hplace, ih (by simpa using hm)]

/-- **The packed layout**, with chunks of any size for each member, over all heads or head by head. -/
theorem packedRows_gives (loadKey loadValue : ℕ → Except String (Tensor R))
    {key value : ℕ → ℕ → ℕ → ℕ → R} (h : prepared.LayoutOf metadata) (batch : Batch metadata members)
    (hpacked : prepared.rectangular = false) (hkvHeads : 0 < kvHeads) (hgroup : 0 < group)
    (hscale : 0 < scale) {q : Tensor R}
    (hq : q.dims = [metadata.slotMapping.length, kvHeads * group, dim])
    (hload : ∀ {m : ℕ} {member : UInt32 × UInt32}, members[m]? = some member →
      Gives P (loadKey m) (· = Tensor.ofFn3 member.2.toNat kvHeads dim (key m)) ∧
        Gives P (loadValue m) (· = Tensor.ofFn3 member.2.toNat kvHeads dim (value m)))
    (hlaunch : P → members.length * (kvHeads * group) * metadata.maxSeqlenQ * metadata.maxSeqlenK ≤
      LAUNCH_CAPACITY) :
    Gives P
      (do
        let outputs ← (List.range members.length).mapM fun member => do
          let q ← q.narrow 0 (metadata.cuSeqlensQ.getD member 0).toNat
            (memberLength metadata.cuSeqlensQ member)
          let k ← loadKey member
          let v ← loadValue member
          packedMember arithmetic q k v prepared scale member
        Tensor.cat outputs 0)
      (ComputesAttention arithmetic scale members metadata.slotMapping.length kvHeads group dim q key
        value) := by
  have hheads : 0 < kvHeads * group := Nat.mul_pos hkvHeads hgroup
  have hpos := batch.maxSeqlenQ_pos
  have hkeysPos := hpos.trans_le (batch.built.max_le_max batch.causal batch.nonempty)
  let lengths := members.map Prod.fst
  let output : ℕ → ℕ → ℕ → R := fun n head d =>
    let (m, row) := locate lengths n
    let member := members.getD m (0, 0)
    causalAttention arithmetic.exp (member.2.toNat - member.1.toNat + row)
      (fun position => score scale dim (fun e => q.get [n, head, e]) (key m position (head / group)))
      fun position => value m position (head / group) d
  have houtput : ∀ {m row head d : ℕ} {member : UInt32 × UInt32}, members[m]? = some member →
      row < member.1.toNat → output (packedRow members m row) head d =
        causalAttention arithmetic.exp (member.2.toNat - member.1.toNat + row)
          (fun position => score scale dim (fun e => q.get [packedRow members m row, head, e])
            (key m position (head / group))) fun position => value m position (head / group) d := by
    intro m row head d member hm hrow
    have hlocate : locate lengths (packedRow members m row) = (m, row) :=
      locate_firstRow (by rw [List.getElem?_map, hm]; rfl) hrow
    have hmember : members.getD m (0, 0) = member := by
      rw [List.getD_eq_getElem?_getD, hm, Option.getD_some]
    simp only [output, hlocate, hmember]
  refine Gives.bindEq (Gives.mapM (F := fun m => Tensor.ofFn3 (lengths.getD m 0).toNat
    (kvHeads * group) dim fun row head d => output (firstRow lengths m + row) head d)
    fun m hm => ?_) ?_
  · have hm : m < members.length := List.mem_range.mp hm
    obtain ⟨member, hmember⟩ : ∃ member, members[m]? = some member := ⟨_, List.getElem?_eq_getElem hm⟩
    have hmem := List.mem_of_getElem? hmember
    have hcausal := batch.causal member hmem
    have hfirst : lengths[m]? = some member.1 := by rw [List.getElem?_map, hmember]; rfl
    have hwithin := firstRow_add_le hfirst
    have hstart := batch.toNat_cuSeqlensQ hm.le
    have hlength := batch.memberLength_q hmember
    rw [← batch.length_slots] at hwithin
    have hget : lengths.getD m 0 = member.1 := by
      rw [List.getD_eq_getElem?_getD, hfirst, Option.getD_some]
    obtain ⟨work, hwork, hchunk⟩ := h.packedWork hpacked m (by
      rw [batch.length_q, Nat.add_sub_cancel]
      exact hm)
    rw [hstart, hlength, Tensor.eq_ofFn3 hq]
    refine Gives.bindEq (Gives.of_eq_ok (Tensor.narrow0_ofFn3 hwithin) rfl) ?_
    refine Gives.bindEq (hload hmember).1 (Gives.bindEq (hload hmember).2 ?_)
    have hscores : kvHeads * group * member.1.toNat * member.2.toNat ≤
        members.length * (kvHeads * group) * metadata.maxSeqlenQ * metadata.maxSeqlenK := by
      refine Nat.mul_le_mul (Nat.mul_le_mul ?_ (batch.built.describes.le_maxSeqlenQ member hmem))
        (batch.built.describes.le_maxSeqlenK member hmem)
      exact Nat.le_mul_of_pos_left _ batch.length_pos
    have hmembers : P → m + 1 ≤ USIZE_MAX := by
      intro hP
      refine le_trans ?_ ((hlaunch hP).trans LAUNCH_CAPACITY_le)
      rw [Nat.mul_assoc, Nat.mul_assoc]
      exact hm.trans_le (Nat.le_mul_of_pos_right _ (Nat.mul_pos hheads (Nat.mul_pos hpos hkeysPos)))
    refine (packedMember_gives _ _ _ (by rw [h.logical, batch.length_q]; omega)
      (by rw [h.logical, hlength]) (by rw [h.logical, batch.memberLength_k hmember]) hcausal.2 hcausal.1
      hkvHeads hgroup hscale hwork hchunk (fun hP => hscores.trans (hlaunch hP)) hmembers).imp
      fun out hout => ?_
    rw [hout, hget]
    exact Tensor.ofFn3_congr fun row head d hrow _ _ => (houtput hmember hrow).symm
  · have hcat := Tensor.cat0_ofFn3 (b := kvHeads * group) (c := dim)
      (lengths.map UInt32.toNat) output (by simpa [lengths] using batch.nonempty)
    rw [tiles_lengths, List.map_map] at hcat
    have hsum : (lengths.map UInt32.toNat).sum = metadata.slotMapping.length := by
      rw [batch.length_slots]
      rfl
    have hrange : lengths.length = members.length := List.length_map _
    rw [hsum, hrange] at hcat
    refine Gives.of_eq_ok (Eq.trans ?_ hcat) ⟨fun _ => rfl, fun {m row member head d} hm hrow hhead hd => ?_⟩
    · refine congrArg (Tensor.cat · 0) (List.map_congr_left fun m _ => ?_)
      simp only [Function.comp_apply, Nat.zero_add]
    · have hlt := PreparedAttention.LayoutOf.layoutRow_lt batch false hm hrow
      rw [layoutRow_false batch (List.getElem?_eq_some_iff.mp hm).1] at hlt
      have hlt : packedRow members m row < metadata.slotMapping.length := hlt
      rw [Tensor.get_ofFn3 hlt hhead hd]
      exact houtput hm hrow

/-! ### The two computations -/

/-- The checks of the projections pass. -/
theorem validate_gives {q k v : Tensor R} {rows : ℕ} {outer : List ℕ}
    (hk : k.dims = outer ++ [kvHeads, dim]) (hq : q.dims = [rows, kvHeads * group, dim])
    (hv : v.dims = k.dims) (hkvHeads : 0 < kvHeads) (hgroup : 0 < group) (hdim : 0 < dim)
    (hscale : 0 < scale) : Gives P (validate q k v scale) fun _ => True := by
  have hlength : k.dims.length = outer.length + 2 := by rw [hk]; simp
  have hdims : q.dims3 = .ok (rows, kvHeads * group, dim) := by rw [Tensor.dims3, hq]
  have hheads : k.dim (k.dims.length - 2) = .ok kvHeads := by
    rw [Tensor.dim, hlength, Nat.add_sub_cancel, hk]
    simp
  have hwidth : k.dim (k.dims.length - 1) = .ok dim := by
    rw [Tensor.dim, hlength, show outer.length + 2 - 1 = outer.length + 1 from rfl, hk]
    simp
  have hpos := Nat.mul_pos hkvHeads hgroup
  refine Gives.bindEq (Gives.of_eq_ok hdims rfl) ?_
  refine Gives.bindEq (Gives.of_eq_ok hheads rfl) ?_
  refine Gives.bindEq (Gives.of_eq_ok hwidth rfl) ?_
  refine (Gives.bailIf fun _ => ?_).imp fun _ _ => trivial
  rw [Nat.mul_mod_right]
  rintro (hbad | hbad | hbad | hbad | hbad | hbad | hbad)
  · omega
  · omega
  · exact hbad rfl
  · omega
  · exact hbad rfl
  · exact hbad hv.symm
  · exact absurd hscale (not_lt.mpr hbad)

/-- **Attention over projected keys and values.** -/
theorem prefillAttn_gives (h : prepared.LayoutOf metadata) (batch : Batch metadata members)
    (hsame : metadata.cuSeqlensQ = metadata.cuSeqlensK ∧ metadata.maxSeqlenQ = metadata.maxSeqlenK)
    (hkvHeads : 0 < kvHeads) (hgroup : 0 < group) (hdim : 0 < dim) (hscale : 0 < scale)
    {rows keyRows valueRows q k v : Tensor R}
    (hrows : rows.dims = [layoutRows metadata prepared.rectangular, kvHeads * group, dim])
    (hkeyRows : keyRows.dims = [layoutRows metadata prepared.rectangular, kvHeads, dim])
    (hvalueRows : valueRows.dims = [layoutRows metadata prepared.rectangular, kvHeads, dim])
    (hq : prepared.unpadQueries rows = .ok q) (hk : prepared.unpadQueries keyRows = .ok k)
    (hv : prepared.unpadQueries valueRows = .ok v)
    (hlaunch : P → members.length * (kvHeads * group) * metadata.maxSeqlenQ * metadata.maxSeqlenK ≤
      LAUNCH_CAPACITY) :
    Gives P (prefillAttn arithmetic rows keyRows valueRows prepared scale >>= prepared.unpadQueries)
      (ComputesAttention arithmetic scale members metadata.slotMapping.length kvHeads group dim q
        (fun m position h d => k.get [packedRow members m position, h, d])
        fun m position h d => v.get [packedRow members m position, h, d]) := by
  have hlengths : ∀ {m : ℕ} {member : UInt32 × UInt32}, members[m]? = some member →
      member.1.toNat = member.2.toNat := by
    intro m member hm
    rw [← batch.memberLength_q hm, ← batch.memberLength_k hm, hsame.1]
  obtain ⟨k', hk', hkDims, hkget⟩ := h.exists_unpadQueries batch [kvHeads, dim] hkeyRows
  obtain ⟨v', hv', hvDims, hvget⟩ := h.exists_unpadQueries batch [kvHeads, dim] hvalueRows
  rw [hk] at hk'
  rw [hv] at hv'
  cases hk'
  cases hv'
  rw [prefillAttn, bind_assoc]
  refine (validate_gives
    (show keyRows.dims = [layoutRows metadata prepared.rectangular] ++ [kvHeads, dim] from hkeyRows) hrows
    (hvalueRows.trans hkeyRows.symm) hkvHeads hgroup hdim hscale).bind fun _ _ => ?_
  rw [h.logical, bind_assoc]
  refine (Gives.bailIf fun _ hne => hne hsame.1).bind fun _ _ => ?_
  rw [batch.length_q, Nat.add_sub_cancel]
  cases hrect : prepared.rectangular with
  | true =>
    have hlayout : layoutRows metadata prepared.rectangular =
        members.length * metadata.maxSeqlenQ := by
      rw [hrect, layoutRows, if_pos rfl, batch.length_q, Nat.add_sub_cancel]
    rw [hlayout] at hrows hkeyRows hvalueRows
    have hqDims : rows.dims3 = .ok (members.length * metadata.maxSeqlenQ, kvHeads * group, dim) := by
      rw [Tensor.dims3, hrows]
    have hkDim : keyRows.dim 1 = .ok kvHeads := by
      rw [Tensor.dim, hkeyRows]
      rfl
    have hplace : ∀ {m position : ℕ} {member : UInt32 × UInt32}, members[m]? = some member →
        position < member.2.toNat →
        m * metadata.maxSeqlenK + (metadata.maxSeqlenK - member.2.toNat + position) =
          layoutRow metadata prepared.rectangular m position := by
      intro m position member hm _
      rw [hrect, layoutRow, if_pos rfl, batch.memberLength_q hm, hlengths hm, hsame.2, Nat.add_assoc]
    rw [if_pos rfl]
    simp only [bind_assoc]
    refine Gives.bindEq (Gives.of_eq_ok hqDims rfl) ?_
    refine Gives.bindEq (Gives.of_eq_ok hkDim rfl) ?_
    refine Gives.bindEq (Gives.of_eq_ok (Tensor.reshape_eq_split hrows) rfl) ?_
    rw [hsame.2] at hkeyRows hvalueRows
    refine Gives.bindEq (Gives.of_eq_ok (Tensor.reshape_eq_split hkeyRows) rfl) ?_
    refine Gives.bindEq (Gives.of_eq_ok (Tensor.reshape_eq_split hvalueRows) rfl) ?_
    refine denseRows_gives h batch hrect hkvHeads hgroup hscale hrows hq
      (fun m member position head d hm hposition hhead hd => ?_) batch.maxSeqlenQ_pos hlaunch
    have hlt := (List.getElem?_eq_some_iff.mp hm).1
    have hrow : position < member.1.toNat := by rw [hlengths hm]; exact hposition
    have hindex : InBounds [kvHeads, dim] [head, d] := by simp [hhead, hd]
    rw [hplace hm hposition, ← layoutRow_false batch hlt, hkget hm hrow hindex, hvget hm hrow hindex]
    exact ⟨rfl, rfl⟩
  | false =>
    rw [h.unpad_of_packed hrect] at hq hk hv
    cases hq
    cases hk
    cases hv
    rw [hrect] at hrows hkeyRows hvalueRows
    rw [if_neg (by simp), h.bind_unpad_of_packed hrect]
    have hload : ∀ {t : Tensor R}, t.dims = [layoutRows metadata false, kvHeads, dim] →
        ∀ {m : ℕ} {member : UInt32 × UInt32}, members[m]? = some member →
          t.narrow 0 (metadata.cuSeqlensQ.getD m 0).toNat (memberLength metadata.cuSeqlensQ m) =
            .ok (Tensor.ofFn3 member.2.toNat kvHeads dim fun position h d =>
              t.get [packedRow members m position, h, d]) := by
      intro t ht m member hm
      have hlt := (List.getElem?_eq_some_iff.mp hm).1
      have hfirst : (members.map Prod.fst)[m]? = some member.1 := by rw [List.getElem?_map, hm]; rfl
      have hwithin := firstRow_add_le hfirst
      rw [← batch.length_slots] at hwithin
      rw [batch.toNat_cuSeqlensQ hlt.le, batch.memberLength_q hm, hlengths hm]
      rw [hlengths hm] at hwithin
      conv_lhs => rw [Tensor.eq_ofFn3 ht]
      exact Tensor.narrow0_ofFn3 hwithin
    exact packedRows_gives _ _ h batch hrect hkvHeads hgroup hscale hrows (fun hm =>
      ⟨Gives.of_eq_ok (hload hkeyRows hm) rfl, Gives.of_eq_ok (hload hvalueRows hm) rfl⟩) hlaunch

/-- **Attention over the paged cache.** -/
theorem pagedAttn_gives {numBlocks blockSize : ℕ} (h : prepared.LayoutOf metadata)
    (batch : Batch metadata members) (covered : Covered metadata members numBlocks blockSize)
    (hpos : 0 < numBlocks ∧ 0 < blockSize ∧ 0 < kvHeads ∧ 0 < dim) (hgroup : 0 < group)
    (hscale : 0 < scale) {rows q keyCache valueCache : Tensor R}
    (hrows : rows.dims = [layoutRows metadata prepared.rectangular, kvHeads * group, dim])
    (hq : prepared.unpadQueries rows = .ok q)
    (hkeyCache : keyCache.dims = [numBlocks, blockSize, kvHeads, dim])
    (hvalueCache : valueCache.dims = [numBlocks, blockSize, kvHeads, dim])
    (hlaunch : P → members.length * (kvHeads * group) * metadata.maxSeqlenQ * metadata.maxSeqlenK ≤
      LAUNCH_CAPACITY)
    (hgather : P → members.length * metadata.maxSeqlenK * (kvHeads * dim) ≤ LAUNCH_CAPACITY)
    (hmatches : P → CacheMatches prepared [numBlocks, blockSize, kvHeads, dim]) :
    Gives P
      (pagedAttn arithmetic rows keyCache valueCache prepared scale blockSize >>= prepared.unpadQueries)
      (ComputesAttention arithmetic scale members metadata.slotMapping.length kvHeads group dim q
        (fun m => cachedEntry blockSize (metadata.blockTable.getD m []) fun i j h d =>
          keyCache.get [i, j, h, d])
        fun m => cachedEntry blockSize (metadata.blockTable.getD m []) fun i j h d =>
          valueCache.get [i, j, h, d]) := by
  obtain ⟨hnumBlocks, hblockSize, hkvHeads, hdim⟩ := hpos
  have hpage : keyCache.dim 1 = .ok blockSize := by
    rw [Tensor.dim, hkeyCache]
    rfl
  rw [pagedAttn, bind_assoc]
  refine (validate_gives (show keyCache.dims = [numBlocks, blockSize] ++ [kvHeads, dim] from hkeyCache)
    hrows (hvalueCache.trans hkeyCache.symm) hkvHeads hgroup hdim hscale).bind fun _ _ => ?_
  rw [bind_assoc, hkeyCache]
  refine (validateCache_gives h batch covered ⟨hnumBlocks, hblockSize, hkvHeads, hdim⟩ hmatches).bind
    fun _ _ => ?_
  rw [bind_assoc]
  refine Gives.bindEq (Gives.of_eq_ok hpage rfl) ?_
  rw [bind_assoc]
  refine (Gives.bailIf fun _ hne => hne rfl).bind fun _ _ => ?_
  rw [h.logical]
  dsimp only
  rw [batch.length_q, Nat.add_sub_cancel]
  cases hrect : prepared.rectangular with
  | true =>
    have hlayout : layoutRows metadata prepared.rectangular =
        members.length * metadata.maxSeqlenQ := by
      rw [hrect, layoutRows, if_pos rfl, batch.length_q, Nat.add_sub_cancel]
    rw [hlayout] at hrows
    have hqDims : rows.dims3 = .ok (members.length * metadata.maxSeqlenQ, kvHeads * group, dim) := by
      rw [Tensor.dims3, hrows]
    have hload : ∀ {t : Tensor R}, t.dims = [numBlocks, blockSize, kvHeads, dim] →
        Gives P (gatherCache t prepared) (· = Tensor.ofFn4 members.length metadata.maxSeqlenK kvHeads dim
          fun m c h d => if c < keyPadding prepared metadata.maxSeqlenK m then 0
            else cachedEntry blockSize (metadata.blockTable.getD m []) (fun i j h d => t.get [i, j, h, d])
              (c - keyPadding prepared metadata.maxSeqlenK m) h d) := by
      intro t ht
      conv in gatherCache t prepared => rw [Tensor.eq_ofFn4 ht]
      exact gatherCache_gives h batch covered ⟨hnumBlocks, hblockSize, hkvHeads, hdim⟩ hmatches
        fun hP => le_trans (by simp [mul_assoc]) (hgather hP)
    rw [if_pos rfl]
    simp only [bind_assoc]
    refine Gives.bindEq (Gives.of_eq_ok hqDims rfl) ?_
    refine Gives.bindEq (Gives.of_eq_ok (Tensor.reshape_eq_split hrows) rfl) ?_
    refine Gives.bindEq (hload hkeyCache) (Gives.bindEq (hload hvalueCache) ?_)
    refine denseRows_gives h batch hrect hkvHeads hgroup hscale hrows hq
      (fun m member position head d hm _ _ _ => ?_) batch.maxSeqlenQ_pos hlaunch
    have hpadding : keyPadding prepared metadata.maxSeqlenK m =
        metadata.maxSeqlenK - member.2.toNat := by
      rw [keyPadding, h.logical, batch.memberLength_k hm]
    rw [hpadding, if_neg (by omega), if_neg (by omega), Nat.add_sub_cancel_left]
    exact ⟨rfl, rfl⟩
  | false =>
    rw [h.unpad_of_packed hrect] at hq
    cases hq
    rw [hrect] at hrows
    rw [if_neg (by simp), h.bind_unpad_of_packed hrect]
    have hload : ∀ {t : Tensor R}, t.dims = [numBlocks, blockSize, kvHeads, dim] →
        ∀ {m : ℕ} {member : UInt32 × UInt32}, members[m]? = some member →
          Gives P (gatherMember t prepared m) (· = Tensor.ofFn3 member.2.toNat kvHeads dim
            (cachedEntry blockSize (metadata.blockTable.getD m []) fun i j h d => t.get [i, j, h, d])) := by
      intro t ht m member hm
      conv in gatherMember t prepared m => rw [Tensor.eq_ofFn4 ht]
      refine gatherMember_gives h batch covered ⟨hnumBlocks, hblockSize, hkvHeads, hdim⟩ hmatches hm
        fun hP => le_trans ?_ (hgather hP)
      have hle := batch.built.describes.le_maxSeqlenK member (List.mem_of_getElem? hm)
      have hone := batch.length_pos
      simp only [List.prod_cons, List.prod_nil, Nat.mul_one, Nat.one_mul]
      exact Nat.mul_le_mul_right _ (hle.trans (Nat.le_mul_of_pos_left _ hone))
    exact packedRows_gives _ _ h batch hrect hkvHeads hgroup hscale hrows (fun hm =>
      ⟨hload hkeyCache hm, hload hvalueCache hm⟩) hlaunch

/-- The attention of every query token determines the result. -/
theorem ComputesAttention.unique (batch : Batch metadata members) {q out out' : Tensor R}
    {key value : ℕ → ℕ → ℕ → ℕ → R}
    (h : ComputesAttention arithmetic scale members metadata.slotMapping.length kvHeads group dim q key
      value out)
    (h' : ComputesAttention arithmetic scale members metadata.slotMapping.length kvHeads group dim q key
      value out') : out = out' := by
  have hdims := h.dims batch.nonempty
  have hdims' := h'.dims batch.nonempty
  refine Tensor.ext_get (hdims.trans hdims'.symm) fun index hindex => ?_
  rw [hdims'] at hindex
  obtain ⟨n, head, d, rfl, hn, hhead, hd⟩ := Tensor.inBounds_three.mp hindex
  obtain ⟨m, member, row, hm, hrow, rfl⟩ := batch.exists_row hn
  rw [layoutRow_false batch (List.getElem?_eq_some_iff.mp hm).1, h.get hm hrow hhead hd,
    h'.get hm hrow hhead hd]

end

/-! ### All layouts -/

/-- What every layout of a step does. The conditions under which nothing is refused are stated apart,
so that each part says that the computation succeeds under them, and that whatever it returns is
right. -/
structure LayoutIndependent (arithmetic : ExactArithmetic R) (metadata : AttnMetadata)
    (members : List (UInt32 × UInt32)) (prepared : PreparedAttention) (kvHeads group dim : ℕ)
    (scale : R) : Prop where
  /-- Padding packed rows and dropping the padding is the identity. -/
  unpad_pad : ∀ (t : Tensor R) (rest : List ℕ), t.dims = metadata.slotMapping.length :: rest →
    (prepared.padQueries t >>= prepared.unpadQueries) = .ok t
  /-- Over projected keys and values, for members that are computed from their first token on. -/
  unpaged : metadata.isPrefill = true → metadata.blockTable = [] →
    (∀ member ∈ members, member.1 = member.2) →
    ∀ (rows keyRows valueRows q k v keyCache valueCache : Tensor R) (blockSize : ℕ),
      rows.dims = [layoutRows metadata prepared.rectangular, kvHeads * group, dim] →
      keyRows.dims = [layoutRows metadata prepared.rectangular, kvHeads, dim] →
      valueRows.dims = [layoutRows metadata prepared.rectangular, kvHeads, dim] →
      prepared.unpadQueries rows = .ok q → prepared.unpadQueries keyRows = .ok k →
      prepared.unpadQueries valueRows = .ok v →
      Gives (Runnable metadata members kvHeads group dim)
        (attnCompute arithmetic rows keyRows valueRows keyCache valueCache prepared scale blockSize >>=
          prepared.unpadQueries)
        (ComputesAttention arithmetic scale members metadata.slotMapping.length kvHeads group dim q
          (fun m position h d => k.get [packedRow members m position, h, d])
          fun m position h d => v.get [packedRow members m position, h, d])
  /-- Over the paged cache. -/
  paged : ∀ (numBlocks blockSize : ℕ), Covered metadata members numBlocks blockSize →
    0 < numBlocks → 0 < blockSize →
    ∀ (rows keyRows valueRows q keyCache valueCache : Tensor R),
      rows.dims = [layoutRows metadata prepared.rectangular, kvHeads * group, dim] →
      prepared.unpadQueries rows = .ok q →
      keyCache.dims = [numBlocks, blockSize, kvHeads, dim] →
      valueCache.dims = [numBlocks, blockSize, kvHeads, dim] →
      Gives (Runnable metadata members kvHeads group dim ∧
          CacheMatches prepared [numBlocks, blockSize, kvHeads, dim])
        (attnCompute arithmetic rows keyRows valueRows keyCache valueCache prepared scale blockSize >>=
          prepared.unpadQueries)
        (ComputesAttention arithmetic scale members metadata.slotMapping.length kvHeads group dim q
          (fun m => cachedEntry blockSize (metadata.blockTable.getD m []) fun i j h d =>
            keyCache.get [i, j, h, d])
          fun m => cachedEntry blockSize (metadata.blockTable.getD m []) fun i j h d =>
            valueCache.get [i, j, h, d])
  /-- The cache is read at the slot to which the position was written. -/
  slot : ∀ (numBlocks : ℕ) (pool : BlockPool) (seq : Sequence) (m : ℕ) (member : UInt32 × UInt32),
    Covered metadata members numBlocks pool.blockSize → members[m]? = some member →
    metadata.blockTable[m]? = some (seq.blockTable.map Int.ofNat) →
    ∀ position < member.2.toNat, pool.computeSlotMapping seq position 1 =
      [((logicalBlock pool.blockSize (metadata.blockTable.getD m []) position * pool.blockSize +
        position % pool.blockSize : ℕ) : ℤ)]
  /-- A rectangular layout may be cut into chunks of any size, and its padding may hold anything. -/
  chunks : prepared.rectangular = true → members ≠ [] →
    ∀ (rows q : Tensor R) (fk fv key value : ℕ → ℕ → ℕ → ℕ → R) (chunk : ℕ), 0 < chunk →
      rows.dims = [members.length * metadata.maxSeqlenQ, kvHeads * group, dim] →
      prepared.unpadQueries rows = .ok q →
      (∀ m member position h d, members[m]? = some member → position < member.2.toNat →
        h < kvHeads → d < dim →
        fk m (metadata.maxSeqlenK - member.2.toNat + position) h d = key m position h d ∧
          fv m (metadata.maxSeqlenK - member.2.toNat + position) h d = value m position h d) →
      Gives (Runnable metadata members kvHeads group dim)
        (dense arithmetic (rows.split members.length metadata.maxSeqlenQ (kvHeads * group) dim)
            (Tensor.ofFn4 members.length metadata.maxSeqlenK kvHeads dim fk)
            (Tensor.ofFn4 members.length metadata.maxSeqlenK kvHeads dim fv) prepared scale 0 chunk >>=
          prepared.unpadQueries)
        (ComputesAttention arithmetic scale members metadata.slotMapping.length kvHeads group dim q key
          value)
  /-- The rows that are computed are the same in every layout. -/
  unique : members ≠ [] → ∀ (q : Tensor R) (key value : ℕ → ℕ → ℕ → ℕ → R) (out out' : Tensor R),
    ComputesAttention arithmetic scale members metadata.slotMapping.length kvHeads group dim q key value
        out →
      ComputesAttention arithmetic scale members metadata.slotMapping.length kvHeads group dim q key
        value out' → out = out'

variable {arithmetic : ExactArithmetic R} {scale : R} {metadata : AttnMetadata}
  {members : List (UInt32 × UInt32)} {prepared : PreparedAttention} {kvHeads group dim : ℕ}

/-- Without members there is nothing to compute. -/
theorem gives_of_nil {P : Prop} {x : Except String (Tensor R)} {rows : ℕ} {q : Tensor R}
    {key value : ℕ → ℕ → ℕ → ℕ → R} (hnil : members = []) (hP : P → members ≠ []) :
    Gives P x (ComputesAttention arithmetic scale members rows kvHeads group dim q key value) where
  succeeds h := absurd hnil (hP h)
  returns out _ :=
    { dims := fun hne => absurd hnil hne
      get := fun {m row member h d} hm => by simp [hnil] at hm }

omit [Field R] [LinearOrder R] in
theorem realRows_of_nil (hbuilt : metadata.Built members) (hprepared : prepared.LayoutOf metadata)
    (hnil : members = []) : prepared.realRows = none := by
  subst hnil
  have hdescribes := hbuilt.describes
  have hslots := (AttnMetadata.valid hprepared.valid).slots
  rw [hdescribes.cuSeqlensQ] at hslots
  rw [hprepared.realRows, PreparedAttention.rowsOfLayout, hdescribes.cuSeqlensQ]
  refine if_neg fun hbad => hbad.2 ?_
  rw [hslots]
  simp [cumulative]

/-- Members that are computed from their first token on have the same cumulative lengths for queries and
keys. -/
theorem AttnMetadata.Built.same_of_equal (hbuilt : metadata.Built members)
    (hprefill : metadata.isPrefill = true) (hequal : ∀ member ∈ members, member.1 = member.2) :
    metadata.cuSeqlensQ = metadata.cuSeqlensK ∧ metadata.maxSeqlenQ = metadata.maxSeqlenK := by
  have hmap : members.map Prod.fst = members.map Prod.snd :=
    List.map_congr_left fun member hmember => hequal member hmember
  refine ⟨by rw [hbuilt.describes.cuSeqlensQ, hbuilt.describes.cuSeqlensK, hmap], ?_⟩
  cases hbuilt with
  | decode contextLens blockTable slotMapping => cases hprefill
  | prefill lengths slotMapping =>
    show maxLength ((lengths.zip lengths).map Prod.fst) = maxLength ((lengths.zip lengths).map Prod.snd)
    rw [zip_self, List.map_map, List.map_map]
    rfl
  | continuedPrefill members blockTable slotMapping =>
    show maxLength (((members.map Prod.fst).zip (members.map Prod.snd)).map Prod.fst) =
      maxLength (((members.map Prod.fst).zip (members.map Prod.snd)).map Prod.snd)
    rw [hmap, zip_self]
    simp only [List.map_map]
    rfl

/-- **Attention layout independence.** For metadata that a builder produces from any causal members,
in any layout that preparing them may choose, with chunks of any size and heads split or not. -/
theorem attention_layout_independent (hbuilt : metadata.Built members) (hcausal : Causal members)
    (hprepared : prepared.LayoutOf metadata) (hkvHeads : 0 < kvHeads) (hgroup : 0 < group)
    (hdim : 0 < dim) (hscale : 0 < scale) :
    LayoutIndependent arithmetic metadata members prepared kvHeads group dim scale := by
  have hbatch : members ≠ [] → Batch metadata members :=
    fun hne => ⟨hbuilt, hcausal, hne, hprepared.valid⟩
  constructor
  case unpad_pad =>
    intro t rest hdims
    by_cases hnil : members = []
    · have hreal := realRows_of_nil hbuilt hprepared hnil
      rw [PreparedAttention.padQueries, hreal]
      show prepared.unpadQueries t = _
      rw [PreparedAttention.unpadQueries, hreal]
    · exact hprepared.unpad_pad (hbatch hnil) hdims
  case unpaged =>
    intro hprefill htable hequal rows keyRows valueRows q k v keyCache valueCache blockSize hrows hkeyRows
      hvalueRows hq hk hv
    by_cases hnil : members = []
    · exact gives_of_nil hnil fun hP => hP.nonempty
    · have hchoice : (prepared.logical.isPrefill && !prepared.logical.usesPagedKv) = true := by
        rw [hprepared.logical, hprefill, AttnMetadata.usesPagedKv, htable]
        rfl
      rw [attnCompute, if_pos hchoice]
      exact prefillAttn_gives hprepared (hbatch hnil) (hbuilt.same_of_equal hprefill hequal) hkvHeads
        hgroup hdim hscale hrows hkeyRows hvalueRows hq hk hv fun hP => hP.scores
  case paged =>
    intro numBlocks blockSize covered hnumBlocks hblockSize rows keyRows valueRows q keyCache valueCache
      hrows hq hkeyCache hvalueCache
    by_cases hnil : members = []
    · exact gives_of_nil hnil fun hP => hP.1.nonempty
    · have hne : metadata.blockTable ≠ [] := by
        intro htable
        have hlength := covered.length_eq
        rw [htable, List.length_nil] at hlength
        exact hnil (List.length_eq_zero_iff.mp hlength.symm)
      have hchoice : ¬ (prepared.logical.isPrefill && !prepared.logical.usesPagedKv) = true := by
        rw [hprepared.logical, AttnMetadata.usesPagedKv]
        cases htable : metadata.blockTable with
        | nil => exact absurd htable hne
        | cons row rest => simp
      rw [attnCompute, if_neg hchoice]
      exact pagedAttn_gives hprepared (hbatch hnil) covered ⟨hnumBlocks, hblockSize, hkvHeads, hdim⟩ hgroup
        hscale hrows hq hkeyCache hvalueCache (fun hP => hP.1.scores) (fun hP => hP.1.keys)
        fun hP => hP.2
  case slot =>
    intro numBlocks pool seq m member covered hm hrow position hposition
    have hcovers := covered.le_row hm hrow
    rw [List.getD_eq_getElem?_getD, hrow, Option.getD_some]
    exact computeSlotMapping_eq_logicalSlot rfl (by omega)
  case chunks =>
    intro hrect hne rows q fk fv key value chunk hchunk hrows hq hkey
    exact denseRows_gives hprepared (hbatch hne) hrect hkvHeads hgroup hscale hrows hq hkey hchunk
      fun hP => hP.scores
  case unique =>
    intro hne q key value out out' h h'
    exact h.unique (hbatch hne) h'

/-- Exact arithmetic on the real numbers. -/
noncomputable def realArithmetic : ExactArithmetic ℝ where
  exp := Real.exp
  sqrt := Real.sqrt
  softmax := softmaxRow Real.exp
  sqrt_mul_self _ hx := Real.mul_self_sqrt hx.le
  softmax_eq _ _ := rfl

/-- The limits under which the two members are computed at once. -/
def twoMembersLimits : MathLimits where
  queryHeads := 4
  kvHeads := 2
  headDim := 8
  blockSize := 2
  numBlocks := 3
  maxQueryTokens := 4
  workspaceBytes := 1048576

theorem attention_layout_independent_twoMembers :
    match PreparedAttention.prepareWithLimits MathLimits.twoMemberMetadata
      (some twoMembersLimits) with
    | .ok prepared => prepared.rectangular = true ∧
        LayoutIndependent realArithmetic MathLimits.twoMemberMetadata [(1, 2), (2, 4)] prepared 2 2 8
          (1 / 2)
    | .error _ => False := by
  have hlayout : (PreparedAttention.prepareWithLimits MathLimits.twoMemberMetadata
      (some twoMembersLimits)).map PreparedAttention.rectangular = .ok true := by
    decide +kernel
  split
  · rename_i prepared hprepared
    rw [hprepared] at hlayout
    refine ⟨Except.ok.inj hlayout, ?_⟩
    exact attention_layout_independent (.continuedPrefill [(1, 2), (2, 4)] _ _)
      (by decide +kernel) (PreparedAttention.layoutOf_prepareWithLimits hprepared) (by decide) (by decide)
      (by decide) (by norm_num)
  · rename_i message herror
    rw [herror] at hlayout
    cases hlayout

end VllmOxide
