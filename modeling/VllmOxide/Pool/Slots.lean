import VllmOxide.Pool.Append

/-!
# Cache slots

The slot of a logical position is its offset in the block of the table that covers it.
`computeSlotMapping` lists the slots of consecutive positions. Different positions of a table have
different slots, and tables that share no block share no slot.

## Main definitions

* `Sequence.slot`: the slot of a position.

## Main results

* `BlockPool.computeSlotMapping_eq`: the mapping of a range covered by the table.
* `Sequence.slot_inj`: different positions have different slots.
* `BlockPool.Invariant.uncached`: the block of a position not yet cached is private.
-/

namespace VllmOxide

namespace Sequence

variable {seq seq' : Sequence} {p q : ℕ}

/-- The block of the table that covers a position. -/
def blockOf (seq : Sequence) (p : ℕ) : ℕ :=
  seq.blockTable.getD (p / BLOCK_SIZE) 0

/-- The cache slot of a position. -/
def slot (seq : Sequence) (p : ℕ) : ℕ :=
  seq.blockOf p * BLOCK_SIZE + p % BLOCK_SIZE

theorem slot_div (seq : Sequence) (p : ℕ) : seq.slot p / BLOCK_SIZE = seq.blockOf p := by
  simp only [slot, BLOCK_SIZE]
  omega

theorem slot_mod (seq : Sequence) (p : ℕ) : seq.slot p % BLOCK_SIZE = p % BLOCK_SIZE := by
  simp only [slot, BLOCK_SIZE]
  omega

theorem index_lt (hp : p < BLOCK_SIZE * seq.blockTable.length) :
    p / BLOCK_SIZE < seq.blockTable.length := by
  simp only [BLOCK_SIZE] at *
  omega

theorem getElem?_blockOf (hp : p < BLOCK_SIZE * seq.blockTable.length) :
    seq.blockTable[p / BLOCK_SIZE]? = some (seq.blockOf p) := by
  rw [blockOf, List.getD_eq_getElem?_getD, List.getElem?_eq_getElem (index_lt hp),
    Option.getD_some]

theorem blockOf_mem (hp : p < BLOCK_SIZE * seq.blockTable.length) :
    seq.blockOf p ∈ seq.blockTable :=
  List.mem_of_getElem? (getElem?_blockOf hp)

/-- Different positions have different slots. -/
theorem slot_inj (hnodup : seq.blockTable.Nodup) (hp : p < BLOCK_SIZE * seq.blockTable.length)
    (hq : q < BLOCK_SIZE * seq.blockTable.length) (h : seq.slot p = seq.slot q) : p = q := by
  have hblock : seq.blockOf p = seq.blockOf q := by rw [← slot_div, ← slot_div, h]
  have hoffset : p % BLOCK_SIZE = q % BLOCK_SIZE := by
    rw [← seq.slot_mod p, h, seq.slot_mod]
  have hindex : p / BLOCK_SIZE = q / BLOCK_SIZE := by
    refine (List.getElem?_inj (index_lt hp) hnodup).mp ?_
    rw [getElem?_blockOf hp, getElem?_blockOf hq, hblock]
  rw [← Nat.div_add_mod p BLOCK_SIZE, ← Nat.div_add_mod q BLOCK_SIZE, hindex, hoffset]

end Sequence

namespace BlockPool

/-- The mapping of a range that the table covers. -/
theorem computeSlotMapping_eq {pool : BlockPool} (hsize : pool.blockSize = BLOCK_SIZE)
    {seq : Sequence} {start count : ℕ}
    (h : start + count ≤ BLOCK_SIZE * seq.blockTable.length) :
    pool.computeSlotMapping seq start count =
      (List.range count).map fun i => (seq.slot (start + i) : ℤ) := by
  rw [computeSlotMapping]
  refine List.map_congr_left fun i hi => ?_
  have hlt : start + i < BLOCK_SIZE * seq.blockTable.length := by
    have := List.mem_range.mp hi
    omega
  simp only [hsize, Sequence.getElem?_blockOf hlt]
  rfl

namespace Invariant

variable [HashFunction] {pool : BlockPool} {seqs : List Sequence}

/-- The block of a position that is not yet cached carries no identity. -/
theorem uncached (I : pool.Invariant (seqs.map Sequence.holder)) {seq : Sequence}
    (hseq : seq ∈ seqs) {p : ℕ} (hcached : seq.numCachedTokens ≤ p)
    (hp : p < BLOCK_SIZE * seq.blockTable.length) : pool.identityAt (seq.blockOf p) = none := by
  rw [I.cached seq.holder (List.mem_map_of_mem hseq) _ _ (Sequence.getElem?_blockOf hp), if_neg]
  intro h
  have hle : BLOCK_SIZE * (p / BLOCK_SIZE + 1) ≤ seq.numCachedTokens := h.2
  simp only [BLOCK_SIZE] at hle
  omega

/-- A block without identity is in the table of one sequence at most. -/
theorem pairwise_private (I : pool.Invariant (seqs.map Sequence.holder)) :
    seqs.Pairwise fun seq seq' => ∀ b, pool.identityAt b = none → b ∈ seq.blockTable →
      b ∉ seq'.blockTable := by
  rw [List.pairwise_iff_getElem]
  intro i j hi hj hij b hnone hb hb'
  have hone := I.holders_le_one hnone
  rw [tables_map_holder] at hone
  have htable : (seqs.map (·.blockTable))[i]? = some seqs[i].blockTable := by
    simp [List.getElem?_eq_getElem hi]
  have htable' : (seqs.map (·.blockTable))[j]? = some seqs[j].blockTable := by
    simp [List.getElem?_eq_getElem hj]
  have htwo := two_le_holders hij.ne htable htable' hb hb'
  omega

/-- A block without identity has one holder at most. -/
theorem eq_of_private (I : pool.Invariant (seqs.map Sequence.holder)) {b : ℕ}
    (hnone : pool.identityAt b = none) {seq other : Sequence} (hseq : seq ∈ seqs)
    (hother : other ∈ seqs) (hb : b ∈ seq.blockTable) (hb' : b ∈ other.blockTable) :
    other = seq := by
  obtain ⟨i, hi, rfl⟩ := List.mem_iff_getElem.mp hseq
  obtain ⟨j, hj, rfl⟩ := List.mem_iff_getElem.mp hother
  rcases lt_trichotomy i j with hij | rfl | hji
  · exact absurd hb' (List.pairwise_iff_getElem.mp I.pairwise_private i j hi hj hij b hnone hb)
  · rfl
  · exact absurd hb (List.pairwise_iff_getElem.mp I.pairwise_private j i hj hi hji b hnone hb')

/-- The block of a position that is not yet cached has exactly one reference. -/
theorem refCount_uncached (I : pool.Invariant (seqs.map Sequence.holder)) {seq : Sequence}
    (hseq : seq ∈ seqs) {p : ℕ} (hcached : seq.numCachedTokens ≤ p)
    (hp : p < BLOCK_SIZE * seq.blockTable.length) :
    (pool.blockAt (seq.blockOf p)).refCount = 1 := by
  have hone := I.holders_le_one (I.uncached hseq hcached hp)
  have hpos := holders_ne_zero (List.mem_map_of_mem (f := Sequence.holder) hseq)
    (Sequence.blockOf_mem hp)
  rw [I.ledger.refCount]
  omega

end Invariant

end BlockPool

end VllmOxide
