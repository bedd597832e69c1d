import VllmOxide.Attention.Dense
import VllmOxide.Library.Checked
import VllmOxide.Library.Lists

/-!
# The workspace of a layout

The bytes that a layout is estimated to need, as unbounded numbers, and the choice that the planner
makes between the layouts. Chunks of few rows are computed with 32 rows, so that the estimate may
grow when the chunk is halved; but the chunk at which the search begins and the chunk of one row
together need no more rows than any chunk between them.

## Main definitions

* `MathLimits.fullEstimate`, `MathLimits.splitEstimate`, `MathLimits.outputBytes`: the estimates.
* `MathLimits.Rectangular`, `MathLimits.Unsplit`, `MathLimits.Split`, `MathLimits.Suits`: what the
  budget allows.
* `chunkCounts`: the row counts of the chunks of the attention computation.

## Main results

* `MathLimits.fits_fullBytes_iff`, `MathLimits.fits_splitBytes_iff`: the checked estimates.
* `MathLimits.fits_reduceChunk`: the search finds a chunk if one fits.
* `MathLimits.plan_exact`: the layout that is planned.
-/

namespace VllmOxide

/-! ### Rows of scores -/

/-- The row counts of the chunks of the attention computation. -/
def chunkCounts (queries chunk : ℕ) : List ℕ :=
  (List.range' 0 (divCeil queries chunk) chunk).map fun start => min (queries - start) chunk

theorem scoreRows_pos {queries keys chunk : ℕ} (h : 0 < chunk) : 0 < scoreRows queries keys chunk := by
  rw [scoreRows]
  split
  · decide
  · exact h

/-- The chunk of one row, or the largest chunk, needs the fewest rows. -/
theorem scoreRows_one_or_largest {queries keys chunk : ℕ} (hcausal : queries ≤ keys)
    (hpos : 1 ≤ chunk) (hle : chunk ≤ min queries 128) :
    scoreRows queries keys 1 ≤ scoreRows queries keys chunk ∨ chunk = min queries 128 := by
  by_cases hall : chunk = queries
  · right
    omega
  · left
    simp only [scoreRows]
    split <;> split <;> omega

/-- A chunk of all queries is the only one. -/
theorem eq_of_mem_chunkCounts_self {queries count : ℕ} (h : count ∈ chunkCounts queries queries) :
    count = queries := by
  obtain ⟨start, hstart, rfl⟩ := List.mem_map.mp h
  obtain ⟨piece, hpiece, rfl⟩ := List.mem_range'.mp hstart
  have hone : divCeil queries queries ≤ 1 := divCeil_le (Nat.mul_one _).ge
  obtain rfl : piece = 0 := by omega
  simp

/-- No chunk has more rows than the estimate counts, also the last one. -/
theorem scoreRows_le_of_mem_chunkCounts {queries keys chunk count : ℕ} (hcausal : queries ≤ keys)
    (hpos : 1 ≤ chunk) (hle : chunk ≤ queries) (h : count ∈ chunkCounts queries chunk) :
    scoreRows queries keys count ≤ scoreRows queries keys chunk := by
  rcases hle.eq_or_lt with rfl | hlt
  · rw [eq_of_mem_chunkCounts_self h]
  · obtain ⟨start, hstart, rfl⟩ := List.mem_map.mp h
    obtain ⟨piece, hpiece, rfl⟩ := List.mem_range'.mp hstart
    have hinside : chunk * piece < queries := by
      by_contra hbeyond
      have hpieces := divCeil_le (not_lt.mp hbeyond)
      omega
    simp only [scoreRows]
    split <;> split <;> omega

/-! ### The estimates -/

theorem product_cons (first : ℕ) {rest : List ℕ} (hpos : ∀ value ∈ rest, 0 < value) :
    product (first :: rest) = within USIZE_MAX (rest.foldl (· * ·) first) := by
  have hgrow : ∀ a, ∀ x ∈ rest, a ≤ a * x :=
    fun a x hx => Nat.le_mul_of_pos_right a (hpos x hx)
  have hfold := bind_foldlM_within USIZE_MAX hgrow first
  rw [← hfold, product, List.foldlM_cons]
  show (checkedMul 1 first).bind _ = _
  rw [checkedMul, Nat.one_mul]
  rfl

/-- A sum of checked terms is checked as a whole. -/
theorem sum_map_within (terms : List ℕ) :
    sum (terms.map (within USIZE_MAX)) = within USIZE_MAX (terms.foldl (· + ·) 0) := by
  have hgrow : ∀ a, ∀ x ∈ terms, a ≤ a + x := fun a x _ => Nat.le_add_right a x
  have hfold := bind_foldlM_within USIZE_MAX hgrow 0
  rw [← hfold, sum, List.foldlM_map, within_of_le (Nat.zero_le _), Option.bind_some]
  congr 1
  funext total value
  exact bind_within USIZE_MAX (Nat.le_add_left value total)

namespace MathLimits

variable (limits : MathLimits)

/-- The bytes that a computation over all heads needs. -/
def fullEstimate (batch queries keys chunk : ℕ) : ℕ :=
  let rows := scoreRows queries keys chunk
  batch * max queries rows * limits.queryHeads * limits.headDim * 32 +
    batch * keys * limits.queryHeads * limits.headDim * 16 +
    batch * limits.queryHeads * rows * keys * 24

/-- The bytes that a computation head by head needs. -/
def splitEstimate (queries keys chunk : ℕ) : ℕ :=
  let rows := scoreRows queries keys chunk
  max queries rows * limits.queryHeads * limits.headDim * 8 +
    keys * limits.kvHeads * limits.headDim * 4 + keys * limits.headDim * 16 +
    queries * limits.headDim * 16 + rows * keys * 24

/-- The bytes of the outputs, which stay until the members are put together. -/
def outputBytes (metadata : AttnMetadata) : ℕ :=
  metadata.slotMapping.length * limits.queryHeads * limits.headDim * 8

variable {limits}

theorem pos_of_checkGeometry (h : limits.checkGeometry = .ok ()) :
    0 < limits.queryHeads ∧ 0 < limits.kvHeads ∧ 0 < limits.headDim := by
  rw [checkGeometry] at h
  split at h
  · cases h
  · omega

/-- **The checked estimate of a computation over all heads** is the unbounded one. -/
theorem fits_fullBytes_iff (hgeometry : limits.checkGeometry = .ok ())
    {batch queries keys chunk budget : ℕ} (hkeys : 0 < keys) (hchunk : 0 < chunk)
    (hbudget : budget ≤ USIZE_MAX) :
    fits (limits.fullBytes batch queries keys chunk) budget = true ↔
      limits.fullEstimate batch queries keys chunk ≤ budget := by
  obtain ⟨hheads, -, hdim⟩ := pos_of_checkGeometry hgeometry
  have hrows : 0 < scoreRows queries keys chunk := scoreRows_pos hchunk
  have hmax : 0 < max queries (scoreRows queries keys chunk) := lt_max_of_lt_right hrows
  have hterms : limits.fullBytes batch queries keys chunk =
      sum ([batch * max queries (scoreRows queries keys chunk) * limits.queryHeads * limits.headDim
          * 32,
        batch * keys * limits.queryHeads * limits.headDim * 16,
        batch * limits.queryHeads * scoreRows queries keys chunk * keys * 24].map
          (within USIZE_MAX)) := by
    rw [fullBytes, product_cons _ (by simp; omega), product_cons _ (by simp; omega),
      product_cons _ (by simp; omega)]
    rfl
  rw [hterms, sum_map_within, fits, any_within_iff hbudget, fullEstimate]
  simp only [List.foldl_cons, List.foldl_nil, Nat.zero_add]

/-- **The checked estimate of a computation head by head** is the unbounded one. -/
theorem fits_splitBytes_iff (hgeometry : limits.checkGeometry = .ok ())
    {queries keys chunk budget : ℕ} (hkeys : 0 < keys) (hbudget : budget ≤ USIZE_MAX) :
    fits (limits.splitBytes queries keys chunk) budget = true ↔
      limits.splitEstimate queries keys chunk ≤ budget := by
  obtain ⟨hheads, hkvHeads, hdim⟩ := pos_of_checkGeometry hgeometry
  have hterms : limits.splitBytes queries keys chunk =
      sum ([max queries (scoreRows queries keys chunk) * limits.queryHeads * limits.headDim * 8,
        keys * limits.kvHeads * limits.headDim * 4, keys * limits.headDim * 16,
        queries * limits.headDim * 16, scoreRows queries keys chunk * keys * 24].map
          (within USIZE_MAX)) := by
    rw [splitBytes, product_cons _ (by simp; omega), product_cons _ (by simp; omega),
      product_cons _ (by simp; omega), product_cons _ (by simp; omega),
      product_cons _ (by simp; omega)]
    rfl
  rw [hterms, sum_map_within, fits, any_within_iff hbudget, splitEstimate]
  simp only [List.foldl_cons, List.foldl_nil, Nat.zero_add]

theorem splitEstimate_mono {queries keys chunk chunk' : ℕ}
    (h : scoreRows queries keys chunk ≤ scoreRows queries keys chunk') :
    limits.splitEstimate queries keys chunk ≤ limits.splitEstimate queries keys chunk' := by
  simp only [splitEstimate]
  gcongr

/-! ### The search for a chunk -/

/-- The search ends at a chunk that fits, or at one row after the first chunk did not fit. -/
theorem reduceChunk_spec (limits : MathLimits) (queries keys budget : ℕ) :
    ∀ {rounds chunk : ℕ}, 1 ≤ chunk → chunk ≤ rounds →
      1 ≤ limits.reduceChunk queries keys budget rounds chunk ∧
        limits.reduceChunk queries keys budget rounds chunk ≤ chunk ∧
        (fits (limits.splitBytes queries keys
            (limits.reduceChunk queries keys budget rounds chunk)) budget = true ∨
          limits.reduceChunk queries keys budget rounds chunk = 1 ∧
            ¬ fits (limits.splitBytes queries keys chunk) budget = true) := by
  intro rounds
  induction rounds with
  | zero =>
    intro chunk hpos hle
    omega
  | succ rounds ih =>
    intro chunk hpos hle
    rw [reduceChunk]
    split
    · rename_i hlarge
      have hhalf : 1 ≤ divCeil chunk 2 ∧ divCeil chunk 2 < chunk := by
        rw [divCeil]
        split <;> omega
      obtain ⟨hone, hsmaller, hend⟩ := ih hhalf.1 (by omega)
      refine ⟨hone, by omega, ?_⟩
      rcases hend with hfits | ⟨hlast, -⟩
      · exact .inl hfits
      · exact .inr ⟨hlast, hlarge.2⟩
    · rename_i hdone
      refine ⟨hpos, le_refl _, ?_⟩
      by_cases hfits : fits (limits.splitBytes queries keys chunk) budget = true
      · exact .inl hfits
      · have hone : chunk = 1 := by
          by_contra hmore
          exact hdone ⟨by omega, hfits⟩
        exact .inr ⟨hone, hfits⟩

/-- **The search misses no chunk**: it ends at a chunk that fits if any chunk up to the first one
fits. -/
theorem fits_reduceChunk (hgeometry : limits.checkGeometry = .ok ()) {queries keys budget chunk : ℕ}
    (hcausal : queries ≤ keys) (hpos : 1 ≤ chunk) (hle : chunk ≤ min queries 128)
    (hbudget : budget ≤ USIZE_MAX) (hfits : limits.splitEstimate queries keys chunk ≤ budget) :
    fits (limits.splitBytes queries keys (limits.reduceChunk queries keys budget
      (min queries 128) (min queries 128))) budget = true := by
  have hkeys : 0 < keys := by omega
  obtain ⟨-, -, hend⟩ := limits.reduceChunk_spec queries keys budget (hpos.trans hle) le_rfl
  rcases hend with hend | ⟨hone, hfirst⟩
  · exact hend
  · rw [fits_splitBytes_iff hgeometry hkeys hbudget] at hfirst ⊢
    rcases scoreRows_one_or_largest hcausal hpos hle with hrows | rfl
    · rw [hone]
      exact (splitEstimate_mono hrows).trans hfits
    · exact absurd hfits hfirst

/-! ### The choice of a layout -/

variable (limits) in
/-- The rectangular computation of the whole batch is within both budgets. -/
def Rectangular (metadata : AttnMetadata) (batch : ℕ) : Prop :=
  1 < batch ∧ batch * metadata.maxSeqlenQ ≤ limits.maxQueryTokens ∧
    limits.fullEstimate batch metadata.maxSeqlenQ metadata.maxSeqlenK metadata.maxSeqlenQ ≤
      limits.workspaceBytes

variable (limits) in
/-- The computation of a member over all heads fits beside the outputs. -/
def Unsplit (metadata : AttnMetadata) (queries keys : ℕ) : Prop :=
  limits.fullEstimate 1 queries keys (QueryWork.standard queries).queryChunk +
    limits.outputBytes metadata ≤ limits.workspaceBytes

variable (limits) in
/-- The computation of a member head by head, in chunks of the given size, fits beside the
outputs. -/
def Split (metadata : AttnMetadata) (queries keys chunk : ℕ) : Prop :=
  1 ≤ chunk ∧ chunk ≤ min queries 128 ∧
    limits.splitEstimate queries keys chunk + limits.outputBytes metadata ≤ limits.workspaceBytes

variable (limits) in
/-- The work is right for a member: over all heads if that fits, and otherwise head by head in chunks
that fit. -/
def Suits (metadata : AttnMetadata) (queries keys : ℕ) (work : QueryWork) : Prop :=
  (limits.Unsplit metadata queries keys ∧ work = QueryWork.standard queries) ∨
    (¬ limits.Unsplit metadata queries keys ∧ work.splitHeads = true ∧
      limits.Split metadata queries keys work.queryChunk)

/-- The work of a member suits it, and there is none exactly if nothing fits. -/
theorem memberWork_spec (hgeometry : limits.checkGeometry = .ok ())
    (hworkspace : limits.workspaceBytes ≤ USIZE_MAX) {metadata : AttnMetadata}
    (houtputs : limits.outputBytes metadata ≤ limits.workspaceBytes) {queries keys : ℕ}
    (hpos : 1 ≤ queries) (hcausal : queries ≤ keys) :
    (∀ work, limits.memberWork (limits.workspaceBytes - limits.outputBytes metadata) queries keys =
        .ok work → limits.Suits metadata queries keys work) ∧
      ((∃ error, limits.memberWork (limits.workspaceBytes - limits.outputBytes metadata)
          queries keys = .error error) ↔
        ¬ limits.Unsplit metadata queries keys ∧
          ∀ chunk, ¬ limits.Split metadata queries keys chunk) := by
  have hkeys : 0 < keys := by omega
  have hbudget : limits.workspaceBytes - limits.outputBytes metadata ≤ USIZE_MAX :=
    (Nat.sub_le _ _).trans hworkspace
  have hchunk : 0 < (QueryWork.standard queries).queryChunk := by
    simp only [QueryWork.standard]
    split <;> omega
  have hunsplit : fits (limits.fullBytes 1 queries keys (QueryWork.standard queries).queryChunk)
      (limits.workspaceBytes - limits.outputBytes metadata) = true ↔
        limits.Unsplit metadata queries keys := by
    rw [fits_fullBytes_iff hgeometry hkeys hchunk hbudget, Nat.le_sub_iff_add_le houtputs]
    rfl
  have hstart : max 1 (min queries 128) = min queries 128 := max_eq_right (by omega)
  rw [memberWork, hstart]
  by_cases hstandard : limits.Unsplit metadata queries keys
  · dsimp only
    rw [if_pos (hunsplit.mpr hstandard)]
    refine ⟨fun work hwork => .inl ⟨hstandard, (Except.ok.inj hwork).symm⟩, ?_⟩
    constructor
    · rintro ⟨error, herror⟩
      cases herror
    · rintro ⟨hnot, -⟩
      exact absurd hstandard hnot
  · dsimp only
    rw [if_neg fun hfits => hstandard (hunsplit.mp hfits)]
    have hfirst : 1 ≤ min queries 128 := by omega
    obtain ⟨hone, hle, -⟩ := limits.reduceChunk_spec queries keys
      (limits.workspaceBytes - limits.outputBytes metadata) hfirst le_rfl
    split
    · rename_i hfits
      have hsplit : limits.Split metadata queries keys _ := ⟨hone, hle,
        (Nat.le_sub_iff_add_le houtputs).mp ((fits_splitBytes_iff hgeometry hkeys hbudget).mp hfits)⟩
      refine ⟨fun work hwork => ?_, ?_⟩
      · obtain rfl := Except.ok.inj hwork
        exact .inr ⟨hstandard, rfl, hsplit⟩
      · constructor
        · rintro ⟨error, herror⟩
          cases herror
        · rintro ⟨-, hnone⟩
          exact absurd hsplit (hnone _)
    · rename_i hfits
      refine ⟨fun work hwork => (nomatch hwork), fun _ => ⟨hstandard, ?_⟩, fun _ => ⟨_, rfl⟩⟩
      rintro chunk ⟨hchunk, hchunkLe, hchunkFits⟩
      exact hfits (fits_reduceChunk hgeometry hcausal hchunk hchunkLe hbudget
        ((Nat.le_sub_iff_add_le houtputs).mpr hchunkFits))

section

variable {metadata : AttnMetadata} {members : List (UInt32 × UInt32)}
  (hmembers : metadata.Describes members)
  (hlengths : ∀ member ∈ members, 1 ≤ member.1.toNat ∧ member.1.toNat ≤ member.2.toNat)
  (hgeometry : limits.checkGeometry = .ok ()) (hbounds : limits.checkBounds metadata = .ok ())
  (htokens : limits.maxQueryTokens ≤ USIZE_MAX) (hworkspace : limits.workspaceBytes ≤ USIZE_MAX)

include hmembers hlengths hgeometry htokens hworkspace in
/-- The checked condition for a rectangular layout. -/
theorem rectangular_iff :
    (decide (1 < members.length) &&
        fits (checkedMul members.length metadata.maxSeqlenQ) limits.maxQueryTokens &&
        fits (limits.fullBytes members.length metadata.maxSeqlenQ metadata.maxSeqlenK
          metadata.maxSeqlenQ) limits.workspaceBytes) = true ↔
      limits.Rectangular metadata members.length := by
  rw [Bool.and_eq_true, Bool.and_eq_true, decide_eq_true_iff, Rectangular, and_assoc]
  refine and_congr_right fun hmany => ?_
  obtain ⟨member, hmember⟩ := List.exists_mem_of_length_pos (by omega : 0 < members.length)
  obtain ⟨hqueries, hkeys⟩ := hlengths member hmember
  have hmaxQ := hmembers.le_maxSeqlenQ member hmember
  have hmaxK := hmembers.le_maxSeqlenK member hmember
  rw [fits_fullBytes_iff hgeometry (by omega) (by omega) hworkspace]
  exact and_congr_left fun _ => any_within_iff htokens

include hmembers hgeometry hbounds in
/-- The planner, behind its checks. -/
theorem plan_eq_layout : limits.plan metadata =
    if (decide (1 < members.length) &&
        fits (checkedMul members.length metadata.maxSeqlenQ) limits.maxQueryTokens &&
        fits (limits.fullBytes members.length metadata.maxSeqlenQ metadata.maxSeqlenK
          metadata.maxSeqlenQ) limits.workspaceBytes) = true then .ok (true, [])
    else
      match within USIZE_MAX (limits.outputBytes metadata) with
      | none => .error "attention output shape overflows"
      | some outputBytes =>
        if limits.workspaceBytes < outputBytes then
          .error "packed attention outputs exceed workspace budget"
        else do
          let work ← members.mapM fun member =>
            limits.memberWork (limits.workspaceBytes - outputBytes) member.1.toNat member.2.toNat
          return (false, work) := by
  obtain ⟨hheads, -, hdim⟩ := pos_of_checkGeometry hgeometry
  have hbatch : metadata.cuSeqlensQ.length - 1 = members.length := by
    rw [hmembers.cuSeqlensQ, length_cumulative, List.length_map, Nat.add_sub_cancel]
  have hzip : (memberLengths metadata.cuSeqlensQ).zip (memberLengths metadata.cuSeqlensK) =
      members := by
    rw [hmembers.memberLengths_q, hmembers.memberLengths_k, ← List.unzip_fst, ← List.unzip_snd,
      List.zip_unzip]
  have houtputs : product [metadata.slotMapping.length, limits.queryHeads, limits.headDim, 8] =
      within USIZE_MAX (limits.outputBytes metadata) := by
    rw [product_cons _ (by simp; omega)]
    rfl
  rw [plan, hgeometry, hbounds]
  have hlayout := layout.eq_1 limits metadata
  rw [hbatch, hzip, houtputs] at hlayout
  exact hlayout

include hmembers hlengths hgeometry hbounds htokens hworkspace in
theorem plan_of_rectangular (h : limits.Rectangular metadata members.length) :
    limits.plan metadata = .ok (true, []) := by
  rw [plan_eq_layout hmembers hgeometry hbounds,
    if_pos ((rectangular_iff hmembers hlengths hgeometry htokens hworkspace).mpr h)]

include hmembers hlengths hgeometry hbounds htokens hworkspace in
theorem plan_of_outputs_fit (h : ¬ limits.Rectangular metadata members.length)
    (hfit : limits.outputBytes metadata ≤ limits.workspaceBytes) :
    limits.plan metadata =
      (members.mapM fun member => limits.memberWork
        (limits.workspaceBytes - limits.outputBytes metadata) member.1.toNat member.2.toNat) >>=
          fun work => .ok (false, work) := by
  rw [plan_eq_layout hmembers hgeometry hbounds,
    if_neg fun hrect => h ((rectangular_iff hmembers hlengths hgeometry htokens hworkspace).mp hrect),
    within_of_le (hfit.trans hworkspace)]
  dsimp only
  rw [if_neg (not_lt.mpr hfit)]
  rfl

include hmembers hlengths hgeometry hbounds htokens hworkspace in
theorem exists_error_of_outputs_exceed (h : ¬ limits.Rectangular metadata members.length)
    (hexceed : limits.workspaceBytes < limits.outputBytes metadata) :
    ∃ error, limits.plan metadata = .error error := by
  rw [plan_eq_layout hmembers hgeometry hbounds,
    if_neg fun hrect => h ((rectangular_iff hmembers hlengths hgeometry htokens hworkspace).mp hrect)]
  by_cases hfits : limits.outputBytes metadata ≤ USIZE_MAX
  · rw [within_of_le hfits]
    dsimp only
    rw [if_pos hexceed]
    exact ⟨_, rfl⟩
  · rw [within_of_lt (not_le.mp hfits)]
    exact ⟨_, rfl⟩

include hmembers hlengths hgeometry hbounds htokens hworkspace in
theorem rectangular_of_plan {work : List QueryWork} (h : limits.plan metadata = .ok (true, work)) :
    limits.Rectangular metadata members.length ∧ work = [] := by
  by_cases hrect : limits.Rectangular metadata members.length
  · rw [plan_of_rectangular hmembers hlengths hgeometry hbounds htokens hworkspace hrect] at h
    exact ⟨hrect, (Prod.mk.inj (Except.ok.inj h)).2.symm⟩
  · by_cases hfit : limits.outputBytes metadata ≤ limits.workspaceBytes
    · rw [plan_of_outputs_fit hmembers hlengths hgeometry hbounds htokens hworkspace hrect hfit] at h
      obtain ⟨found, -, h⟩ := exists_of_bind_ok h
      cases h
    · obtain ⟨error, herror⟩ := exists_error_of_outputs_exceed hmembers hlengths hgeometry hbounds
        htokens hworkspace hrect (not_le.mp hfit)
      rw [herror] at h
      cases h

include hmembers hlengths hgeometry hbounds htokens hworkspace in
/-- A packed layout fails exactly if nothing fits for some member. -/
theorem exists_error_plan_iff (hrect : ¬ limits.Rectangular metadata members.length)
    (hfit : limits.outputBytes metadata ≤ limits.workspaceBytes) :
    (∃ error, limits.plan metadata = .error error) ↔
      ∃ member ∈ members, ¬ limits.Unsplit metadata member.1.toNat member.2.toNat ∧
        ∀ chunk, ¬ limits.Split metadata member.1.toNat member.2.toNat chunk := by
  rw [plan_of_outputs_fit hmembers hlengths hgeometry hbounds htokens hworkspace hrect hfit]
  have hwork : ∀ member ∈ members,
      ((∃ error, limits.memberWork (limits.workspaceBytes - limits.outputBytes metadata)
          member.1.toNat member.2.toNat = .error error) ↔
        ¬ limits.Unsplit metadata member.1.toNat member.2.toNat ∧
          ∀ chunk, ¬ limits.Split metadata member.1.toNat member.2.toNat chunk) := by
    intro member hmember
    obtain ⟨hpos, hcausal⟩ := hlengths member hmember
    exact (memberWork_spec hgeometry hworkspace hfit hpos hcausal).2
  rw [← exists_congr fun member => and_congr_right (hwork member), ← exists_mapM_error_iff]
  constructor
  · rintro ⟨error, herror⟩
    cases hmap : members.mapM fun member => limits.memberWork
        (limits.workspaceBytes - limits.outputBytes metadata) member.1.toNat member.2.toNat with
    | error error => exact ⟨error, rfl⟩
    | ok work =>
      rw [hmap] at herror
      cases herror
  · rintro ⟨error, herror⟩
    rw [herror]
    exact ⟨error, rfl⟩

include hmembers hlengths hgeometry hbounds htokens hworkspace in
/-- The work of a packed layout suits the members. -/
theorem suits_of_plan {work : List QueryWork} (h : limits.plan metadata = .ok (false, work)) :
    List.Forall₂ (fun member work => limits.Suits metadata member.1.toNat member.2.toNat work)
      members work := by
  have hrect : ¬ limits.Rectangular metadata members.length := by
    intro hrect
    rw [plan_of_rectangular hmembers hlengths hgeometry hbounds htokens hworkspace hrect] at h
    cases h
  have hfit : limits.outputBytes metadata ≤ limits.workspaceBytes := by
    by_contra hexceed
    obtain ⟨error, herror⟩ := exists_error_of_outputs_exceed hmembers hlengths hgeometry hbounds
      htokens hworkspace hrect (not_le.mp hexceed)
    rw [herror] at h
    cases h
  rw [plan_of_outputs_fit hmembers hlengths hgeometry hbounds htokens hworkspace hrect hfit] at h
  obtain ⟨found, hfound, h⟩ := exists_of_bind_ok h
  obtain ⟨-, rfl⟩ := Prod.mk.inj (Except.ok.inj h)
  refine forall₂_imp_mem (forall₂_of_mapM_ok hfound) fun member hmember work hwork => ?_
  obtain ⟨hpos, hcausal⟩ := hlengths member hmember
  exact (memberWork_spec hgeometry hworkspace hfit hpos hcausal).1 work hwork

end

/-- The chunks of a work that suits a member have no more rows than its estimate counts. -/
theorem Suits.scoreRows_le {metadata : AttnMetadata} {queries keys count : ℕ} {work : QueryWork}
    (h : limits.Suits metadata queries keys work) (hpos : 1 ≤ queries) (hcausal : queries ≤ keys)
    (hcount : count ∈ chunkCounts queries work.queryChunk) :
    scoreRows queries keys count ≤ scoreRows queries keys work.queryChunk := by
  rcases h with ⟨-, rfl⟩ | ⟨-, -, hone, hle, -⟩
  · refine scoreRows_le_of_mem_chunkCounts hcausal ?_ ?_ hcount <;> simp only [QueryWork.standard] <;>
      split <;> omega
  · exact scoreRows_le_of_mem_chunkCounts hcausal hone (hle.trans (min_le_left _ _)) hcount

/-- **The layout.** For members with at least one query and causal lengths, the planner chooses the
rectangular layout exactly if it is within both budgets. Otherwise, if the outputs fit, it gives each
member the work that suits it, and fails exactly if nothing fits for some member; if they do not fit,
it fails. The chunks that are then computed have no more rows than the estimates count. -/
theorem plan_exact {metadata : AttnMetadata} {members : List (UInt32 × UInt32)}
    (hmembers : metadata.Describes members)
    (hlengths : ∀ member ∈ members, 1 ≤ member.1.toNat ∧ member.1.toNat ≤ member.2.toNat)
    (hgeometry : limits.checkGeometry = .ok ()) (hbounds : limits.checkBounds metadata = .ok ())
    (htokens : limits.maxQueryTokens ≤ USIZE_MAX) (hworkspace : limits.workspaceBytes ≤ USIZE_MAX) :
    (∀ work, limits.plan metadata = .ok (true, work) ↔
      limits.Rectangular metadata members.length ∧ work = []) ∧
    (¬ limits.Rectangular metadata members.length →
      (limits.outputBytes metadata ≤ limits.workspaceBytes →
        (∀ work, limits.plan metadata = .ok (false, work) →
          List.Forall₂ (fun member work =>
            limits.Suits metadata member.1.toNat member.2.toNat work) members work) ∧
        ((∃ error, limits.plan metadata = .error error) ↔
          ∃ member ∈ members, ¬ limits.Unsplit metadata member.1.toNat member.2.toNat ∧
            ∀ chunk, ¬ limits.Split metadata member.1.toNat member.2.toNat chunk)) ∧
      (limits.workspaceBytes < limits.outputBytes metadata →
        ∃ error, limits.plan metadata = .error error)) ∧
    (∀ work, limits.plan metadata = .ok (true, work) →
      ∀ count ∈ chunkCounts metadata.maxSeqlenQ metadata.maxSeqlenQ,
        scoreRows metadata.maxSeqlenQ metadata.maxSeqlenK count ≤
          scoreRows metadata.maxSeqlenQ metadata.maxSeqlenK metadata.maxSeqlenQ) ∧
    (∀ work, limits.plan metadata = .ok (false, work) →
      List.Forall₂ (fun member work =>
        ∀ count ∈ chunkCounts member.1.toNat work.queryChunk,
          scoreRows member.1.toNat member.2.toNat count ≤
            scoreRows member.1.toNat member.2.toNat work.queryChunk) members work) := by
  refine ⟨fun work => ⟨rectangular_of_plan hmembers hlengths hgeometry hbounds htokens hworkspace, ?_⟩,
    fun hrect => ⟨fun hfit => ⟨fun work => ?_, ?_⟩, fun hexceed => ?_⟩,
    fun work _ count hcount => ?_, fun work hplan => ?_⟩
  · rintro ⟨hrect, rfl⟩
    exact plan_of_rectangular hmembers hlengths hgeometry hbounds htokens hworkspace hrect
  · exact suits_of_plan hmembers hlengths hgeometry hbounds htokens hworkspace
  · exact exists_error_plan_iff hmembers hlengths hgeometry hbounds htokens hworkspace hrect hfit
  · exact exists_error_of_outputs_exceed hmembers hlengths hgeometry hbounds htokens hworkspace hrect
      hexceed
  · rw [eq_of_mem_chunkCounts_self hcount]
  · have hsuits := suits_of_plan hmembers hlengths hgeometry hbounds htokens hworkspace hplan
    refine forall₂_imp_mem hsuits fun member hmember work hwork count hcount => ?_
    obtain ⟨hpos, hcausal⟩ := hlengths member hmember
    exact hwork.scoreRows_le hpos hcausal hcount

/-- Two members of one and two queries over two and four keys. -/
def twoMemberMetadata : AttnMetadata :=
  buildContinuedPrefillMetadata [1, 2] [2, 4] [[2], [1, 0]] [5, 0, 1]

/-- A budget without room for the padded batch. -/
def smallLimits : MathLimits :=
  ⟨4, 2, 8, 2, 3, 3, 16384⟩

/-- The first member is computed over all heads and the second one head by head, all its two queries
at once. -/
theorem plan_exact_twoMembers :
    smallLimits.plan twoMemberMetadata = .ok (false, [⟨1, false⟩, ⟨2, true⟩]) ∧
      smallLimits.Suits twoMemberMetadata 2 4 ⟨2, true⟩ := by
  have hplan : smallLimits.plan twoMemberMetadata = .ok (false, [⟨1, false⟩, ⟨2, true⟩]) := by
    decide +kernel
  have hrect : ¬ smallLimits.Rectangular twoMemberMetadata 2 := by
    rintro ⟨-, htokens, -⟩
    exact absurd htokens (by decide)
  have htokens : smallLimits.maxQueryTokens ≤ USIZE_MAX := by simp [smallLimits, USIZE_MAX]
  have hworkspace : smallLimits.workspaceBytes ≤ USIZE_MAX := by simp [smallLimits, USIZE_MAX]
  have hsuits := (plan_exact
    (describes_buildContinuedPrefillMetadata [1, 2] [2, 4] [[2], [1, 0]] [5, 0, 1])
    (by simp) (by decide +kernel) (by decide +kernel) htokens hworkspace).2.1
    hrect
  rcases (hsuits.1 (by decide +kernel)).1 _ hplan with _ | ⟨-, _ | ⟨hsecond, -⟩⟩
  exact ⟨hplan, hsecond⟩

end MathLimits

end VllmOxide
