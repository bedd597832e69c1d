import VllmOxide.Sampler.Prepare
import VllmOxide.Sampler.Wide
import VllmOxide.Library.Lists

/-!
# Device history preparation agrees with the host penalties

The flattened arrays of an accepted batch are the concatenation of one ascending list of counted tokens
for each row, and the offsets are the lengths of its prefixes. The slice of a row therefore holds the
counts of that row's own history and nothing else, and because it is ascending the binary search finds a
token exactly when the host counts it, with the same multiplicity.

## Main definitions

* `hostCounts`: the counts that the host's penalties use.
* `RowEntries`: the ascending list of counted tokens of a row.
* `Flattened`: the arrays of a batch and the lists that they concatenate.
* `Copied`: device buffers after the copy of the flattened arrays.

## Main results

* `flattened_prepareBatch`: an accepted batch is flattened row by row.
* `Flattened.finds_iff`: what the binary search finds in the slice of a row.
* `prepareBatch_history`: the partition, the rows and the search of an accepted batch.
-/

namespace VllmOxide.Sampler

open Extended

variable {R : Type} [Field R] [LinearOrder R]

/-! ### The counts of one row -/

/-- Strictly ascending counted tokens that hold the counts of a history. -/
structure AscendingCounts (vocab : ℕ) (history : List ℕ) (counts : List (ℕ × ℕ)) : Prop where
  ascending : (counts.map Prod.fst).Pairwise (· < ·)
  mem_iff : ∀ token n, (token, n) ∈ counts ↔
    token < vocab ∧ token ∈ history ∧ n = history.count token

/-- Counting a token in an ascending map that accepts it keeps the map ascending, and counts as the
host does. -/
theorem countOrdered_spec {row token : ℕ} {counts counts' : List (ℕ × ℕ)}
    (hascending : (counts.map Prod.fst).Pairwise (· < ·))
    (h : countOrdered row token counts = .ok counts') :
    (counts'.map Prod.fst).Pairwise (· < ·) ∧
      (∀ t ∈ counts'.map Prod.fst, t = token ∨ t ∈ counts.map Prod.fst) ∧
      ∀ t n, (t, n) ∈ counts' ↔ (t, n) ∈ countToken counts token := by
  induction counts generalizing counts' with
  | nil =>
    obtain rfl := Except.ok.inj h
    simp [countToken]
  | cons first rest ih =>
    obtain ⟨t, n⟩ := first
    obtain ⟨hfirst, hrest⟩ := List.pairwise_cons.mp hascending
    rw [countOrdered] at h
    by_cases heq : t = token
    · rw [if_pos heq] at h
      split_ifs at h
      obtain rfl := Except.ok.inj h
      subst heq
      refine ⟨List.pairwise_cons.mpr ⟨hfirst, hrest⟩, fun t ht => .inr ht, fun t' m => ?_⟩
      rw [countToken, if_pos rfl]
    rw [if_neg heq] at h
    by_cases hlt : token < t
    · rw [if_pos hlt] at h
      obtain rfl := Except.ok.inj h
      have hkey : token ∉ ((t, n) :: rest).map Prod.fst := by
        rw [List.map_cons, List.mem_cons, not_or]
        exact ⟨hlt.ne, fun hmem => (hlt.trans (hfirst token hmem)).false⟩
      refine ⟨List.pairwise_cons.mpr ⟨fun t' ht' => ?_, hascending⟩, fun t' ht' => ?_,
        fun t' m => ?_⟩
      · rcases List.mem_cons.mp ht' with rfl | ht'
        · exact hlt
        · exact hlt.trans (hfirst t' ht')
      · exact List.mem_cons.mp ht'
      · have habsent (m : ℕ) : (token, m) ∉ (t, n) :: rest := fun hmem =>
          hkey (List.mem_map.mpr ⟨_, hmem, rfl⟩)
        rw [mem_countToken (hascending.imp ne_of_lt)]
        by_cases ht' : t' = token
        · subst ht'
          constructor
          · intro hmem
            rcases List.mem_cons.mp hmem with heq | hmem
            · exact .inr ⟨rfl, .inl ⟨hkey, (Prod.mk.inj heq).2⟩⟩
            · exact absurd hmem (habsent m)
          · rintro (⟨hne, -⟩ | ⟨-, ⟨-, rfl⟩ | ⟨k, hmem, -⟩⟩)
            · exact absurd rfl hne
            · exact List.mem_cons_self
            · exact absurd hmem (habsent k)
        · simp [ht']
    · rw [if_neg hlt] at h
      obtain ⟨rest', hcount, h⟩ := exists_of_bind_ok h
      obtain rfl := Except.ok.inj h
      obtain ⟨hascending', hkeys, hmem⟩ := ih hrest hcount
      refine ⟨List.pairwise_cons.mpr ⟨fun t' ht' => ?_, hascending'⟩, fun t' ht' => ?_,
        fun t' m => ?_⟩
      · rcases hkeys t' ht' with rfl | ht'
        · exact lt_of_le_of_ne (not_lt.mp hlt) heq
        · exact hfirst t' ht'
      · rcases List.mem_cons.mp ht' with rfl | ht'
        · exact .inr List.mem_cons_self
        · exact (hkeys t' ht').imp_right (List.mem_cons_of_mem _)
      · rw [countToken, if_neg heq, List.mem_cons, List.mem_cons, hmem]

/-- The ordered counts of a history are those of the host, in ascending order. -/
theorem ascendingCounts_orderedCounts {row vocab : ℕ} {history : List ℕ} {counts : List (ℕ × ℕ)}
    (h : orderedCounts row vocab history = .ok counts) : AscendingCounts vocab history counts := by
  induction history using List.reverseRecOn generalizing counts with
  | nil =>
    obtain rfl := Except.ok.inj h
    exact ⟨List.Pairwise.nil, by simp⟩
  | append_singleton history token ih =>
    rw [orderedCounts, List.foldlM_append] at h
    obtain ⟨before, hbefore, h⟩ := exists_of_bind_ok h
    have hprevious := ih hbefore
    have hcounts : Counts vocab history before :=
      ⟨hprevious.ascending.imp ne_of_lt, hprevious.mem_iff⟩
    have hsnoc := hcounts.snoc token
    rw [List.foldlM_cons] at h
    obtain ⟨after, hafter, h⟩ := exists_of_bind_ok h
    obtain rfl := Except.ok.inj h
    by_cases hvocab : token < vocab
    · rw [if_pos hvocab] at hafter hsnoc
      obtain ⟨hascending, -, hmem⟩ := countOrdered_spec hprevious.ascending hafter
      exact ⟨hascending, fun t n => (hmem t n).trans (hsnoc.mem_iff t n)⟩
    · rw [if_neg hvocab] at hafter hsnoc
      obtain rfl := Except.ok.inj hafter
      exact ⟨hprevious.ascending, hsnoc.mem_iff⟩

/-- The counts that a row contributes are those of the history that the penalties look at. -/
theorem ascendingCounts_rowCounts {row vocab : ℕ} {params : SamplingParams R} {history : List ℕ}
    {counts : List (ℕ × ℕ)} (h : rowCounts row vocab params history = .ok counts) :
    AscendingCounts vocab (penalizedHistory params history) counts := by
  rw [rowCounts] at h
  rw [penalizedHistory]
  split_ifs at h ⊢
  · exact ascendingCounts_orderedCounts h
  · obtain rfl := Except.ok.inj h
    exact ⟨List.Pairwise.nil, by simp⟩

/-! ### The flattened arrays -/

theorem eq_of_tryU32_ok {n m : ℕ} {message : String} (h : tryU32 n message = .ok m) :
    n ≤ U32_MAX ∧ n = m := by
  rw [tryU32] at h
  split_ifs at h with hle
  exact ⟨hle, Except.ok.inj h⟩

/-- The arrays of a batch concatenate one ascending list of counts for each row, and the offsets are the
lengths of the prefixes. -/
structure Flattened (vocab : ℕ) (rows : List (SamplingParams R × List ℕ))
    (prepared : PreparedBatch R) (entries : List (List (ℕ × ℕ))) : Prop where
  rows : List.Forall₂
    (fun row counts => AscendingCounts vocab (penalizedHistory row.1 row.2) counts) rows entries
  tokens : prepared.historyTokens = entries.flatten.map Prod.fst
  counts : prepared.historyCounts = entries.flatten.map Prod.snd
  offsets : prepared.historyOffsets =
    (List.range (entries.length + 1)).map fun row => (entries.take row).flatten.length

theorem flattened_initial (vocab : ℕ) :
    Flattened (R := R) vocab [] PreparedBatch.initial [] where
  rows := .nil
  tokens := rfl
  counts := rfl
  offsets := rfl

/-- What an accepted row adds to the arrays. -/
theorem prepareRow_ok {debug : Extended R → String} {vocab row : ℕ}
    {prepared prepared' : PreparedBatch R} {params : SamplingParams R} {history : List ℕ}
    (h : prepareRow debug vocab prepared row params history = .ok prepared') :
    params.validate = .ok () ∧ ∃ counts, rowCounts row vocab params history = .ok counts ∧
      (prepared.historyTokens ++ counts.map Prod.fst).length ≤ U32_MAX ∧
      prepared' = {
        temperatures := prepared.temperatures ++ [params.temperature]
        topKs := prepared.topKs ++ [min (params.topK.getD vocab) vocab]
        topPs := prepared.topPs ++ [params.topP.getD 1]
        presencePenalties := prepared.presencePenalties ++ [params.presencePenalty]
        frequencyPenalties := prepared.frequencyPenalties ++ [params.frequencyPenalty]
        repetitionPenalties := prepared.repetitionPenalties ++ [params.repetitionPenalty]
        historyTokens := prepared.historyTokens ++ counts.map Prod.fst
        historyCounts := prepared.historyCounts ++ counts.map Prod.snd
        historyOffsets := prepared.historyOffsets ++
          [(prepared.historyTokens ++ counts.map Prod.fst).length] } := by
  unfold prepareRow at h
  cases hvalid : params.validate with
  | error error =>
    rw [hvalid] at h
    cases h
  | ok u =>
    rw [hvalid] at h
    obtain ⟨topK, htopK, h⟩ := exists_of_bind_ok h
    obtain ⟨counts, hcounts, h⟩ := exists_of_bind_ok h
    obtain ⟨offset, hoffset, h⟩ := exists_of_bind_ok h
    obtain rfl := Except.ok.inj h
    obtain ⟨-, rfl⟩ := eq_of_tryU32_ok htopK
    obtain ⟨hle, rfl⟩ := eq_of_tryU32_ok hoffset
    exact ⟨rfl, counts, hcounts, hle, rfl⟩

/-- An accepted row adds its own list. -/
theorem Flattened.snoc {debug : Extended R → String} {vocab row : ℕ}
    {rows : List (SamplingParams R × List ℕ)} {prepared prepared' : PreparedBatch R}
    {entries : List (List (ℕ × ℕ))} {params : SamplingParams R} {history : List ℕ}
    (h : Flattened vocab rows prepared entries)
    (hrow : prepareRow debug vocab prepared row params history = .ok prepared') :
    ∃ counts, rowCounts row vocab params history = .ok counts ∧
      Flattened vocab (rows ++ [(params, history)]) prepared' (entries ++ [counts]) := by
  obtain ⟨-, counts, hcounts, -, rfl⟩ := prepareRow_ok hrow
  have hoffset : (prepared.historyTokens ++ counts.map Prod.fst).length =
      (entries ++ [counts]).flatten.length := by
    rw [h.tokens, List.flatten_append, List.flatten_singleton, ← List.map_append, List.length_map]
  refine ⟨counts, hcounts, ?_, ?_, ?_, ?_⟩
  · exact List.rel_append h.rows (.cons (ascendingCounts_rowCounts hcounts) .nil)
  · simp [h.tokens]
  · simp [h.counts]
  · rw [hoffset]
    simp only [h.offsets, List.length_append, List.length_singleton]
    rw [List.range_succ (n := entries.length + 1), List.map_append]
    congr 1
    · refine List.map_congr_left fun r hr => ?_
      rw [List.take_append_of_le_length (by simpa [Nat.lt_succ_iff] using hr)]
    · rw [List.map_singleton, List.take_of_length_le (by simp)]

/-- What the rows of a batch establish one after the other holds of an accepted batch. -/
theorem prepareBatch_invariant {debug : Extended R → String} {params : List (SamplingParams R)}
    {tokenHistory : List (List ℕ)} {vocab : ℕ} {prepared : PreparedBatch R}
    (P : List (SamplingParams R × List ℕ) → PreparedBatch R → Prop) (hinitial : P [] .initial)
    (hsnoc : ∀ rows before rowParams history after, P rows before →
      prepareRow debug vocab before rows.length rowParams history = .ok after →
      P (rows ++ [(rowParams, history)]) after)
    (h : prepareBatch debug params tokenHistory vocab = .ok prepared) :
    P (params.zip tokenHistory) prepared := by
  obtain ⟨vocabU32, hvocab, hrows⟩ := exists_of_bind_ok h
  clear h
  obtain ⟨-, rfl⟩ := eq_of_tryU32_ok hvocab
  generalize params.zip tokenHistory = rows at hrows ⊢
  induction rows using List.reverseRecOn generalizing prepared with
  | nil =>
    obtain rfl := Except.ok.inj hrows
    exact hinitial
  | append_singleton rows row ih =>
    rw [List.zipIdx_append, List.foldlM_append] at hrows
    obtain ⟨before, hbefore, hrow⟩ := exists_of_bind_ok hrows
    simp only [List.zipIdx_singleton, List.foldlM_cons, List.foldlM_nil, Nat.zero_add] at hrow
    obtain ⟨after, hafter, hdone⟩ := exists_of_bind_ok hrow
    obtain rfl := Except.ok.inj hdone
    exact hsnoc rows before row.1 row.2 after (ih hbefore) hafter

/-- An accepted batch is flattened row by row. -/
theorem flattened_prepareBatch {debug : Extended R → String} {params : List (SamplingParams R)}
    {tokenHistory : List (List ℕ)} {vocab : ℕ} {prepared : PreparedBatch R}
    (h : prepareBatch debug params tokenHistory vocab = .ok prepared) :
    ∃ entries, Flattened vocab (params.zip tokenHistory) prepared entries := by
  refine prepareBatch_invariant (fun rows prepared => ∃ entries, Flattened vocab rows prepared entries)
    ⟨[], flattened_initial vocab⟩ ?_ h
  rintro rows before rowParams history after ⟨entries, hentries⟩ hrow
  obtain ⟨counts, -, hsnoc⟩ := hentries.snoc hrow
  exact ⟨entries ++ [counts], hsnoc⟩

/-! ### The slice of a row -/

/-- A slice holds a list of counted tokens. -/
structure HistorySlice.Holds (slice : HistorySlice) (counts : List (ℕ × ℕ)) : Prop where
  length : slice.length = counts.length
  entry : ∀ i < slice.length, counts[i]? = some (slice.tokens i, slice.counts i)

namespace HistorySlice.Holds

variable {slice : HistorySlice} {vocab : ℕ} {history : List ℕ} {counts : List (ℕ × ℕ)}

theorem ascending (h : slice.Holds counts) (hcounts : AscendingCounts vocab history counts) {i j : ℕ}
    (hij : i < j) (hj : j < slice.length) : slice.tokens i < slice.tokens j := by
  have hi := h.entry i (hij.trans hj)
  have hj' := h.entry j hj
  have hpairwise := List.pairwise_map.mp hcounts.ascending
  obtain ⟨hlt, hget⟩ := List.getElem?_eq_some_iff.mp hi
  obtain ⟨hlt', hget'⟩ := List.getElem?_eq_some_iff.mp hj'
  have := List.pairwise_iff_getElem.mp hpairwise i j hlt hlt' hij
  rwa [hget, hget'] at this

theorem exists_place (h : slice.Holds counts) {token n : ℕ} (hmem : (token, n) ∈ counts) :
    ∃ i < slice.length, slice.tokens i = token ∧ slice.counts i = n := by
  obtain ⟨i, hi⟩ := List.mem_iff_getElem?.mp hmem
  have hlt : i < slice.length := h.length ▸ (List.getElem?_eq_some_iff.mp hi).1
  have := h.entry i hlt
  rw [hi, Option.some.injEq, Prod.mk.injEq] at this
  exact ⟨i, hlt, this.1.symm, this.2.symm⟩

/-- The search finds exactly the counted tokens, with their counts. -/
theorem finds_iff (h : slice.Holds counts) (hcounts : AscendingCounts vocab history counts)
    (token n : ℕ) :
    slice.Finds token ∧ slice.counts (slice.search token) = n ↔ (token, n) ∈ counts := by
  obtain ⟨-, hle, hbefore, hafter⟩ := lowerBound_spec slice.tokens token
    (Nat.zero_le slice.length) fun i j _ hij hj => h.ascending hcounts hij hj
  constructor
  · rintro ⟨⟨hlt, htoken⟩, rfl⟩
    have := List.mem_of_getElem? (h.entry _ hlt)
    rwa [htoken] at this
  · intro hmem
    obtain ⟨i, hi, rfl, rfl⟩ := h.exists_place hmem
    have hsearch : slice.search (slice.tokens i) = i := by
      rcases lt_trichotomy (slice.search (slice.tokens i)) i with hlt | heq | hlt
      · have := h.ascending hcounts hlt hi
        exact absurd (hafter _ le_rfl (hlt.trans hi)) (not_le.mpr this)
      · exact heq
      · exact absurd (hbefore i (Nat.zero_le i) hlt) (lt_irrefl _)
    rw [HistorySlice.Finds, hsearch]
    exact ⟨⟨hi, rfl⟩, rfl⟩

end HistorySlice.Holds

/-! ### The rows of an accepted batch -/

/-- The counts that `apply_penalties` and `wide_sampling_scores` use. -/
def hostCounts (params : SamplingParams R) (vocab : ℕ) (history : List ℕ) : List (ℕ × ℕ) :=
  if params.hasPenalties ∧ history ≠ [] then historyCounts vocab history else []

theorem mem_hostCounts {params : SamplingParams R} {vocab token n : ℕ} {history : List ℕ} :
    (token, n) ∈ hostCounts params vocab history ↔
      token < vocab ∧ token ∈ penalizedHistory params history ∧
        n = (penalizedHistory params history).count token := by
  rw [hostCounts, penalizedHistory]
  split_ifs
  · exact (counts_historyCounts vocab history).mem_iff token n
  · simp

/-- The offsets cut the flattened arrays into one part for each row. -/
structure OffsetsPartition (prepared : PreparedBatch R) (rows : ℕ) : Prop where
  length : prepared.historyOffsets.length = rows + 1
  first : prepared.historyOffsets.getD 0 0 = 0
  last : prepared.historyOffsets.getD rows 0 = prepared.historyTokens.length
  monotone : prepared.historyOffsets.Pairwise (· ≤ ·)
  counts : prepared.historyCounts.length = prepared.historyTokens.length

/-- The part of the flattened tokens that belongs to a row. -/
def PreparedBatch.rowTokens (prepared : PreparedBatch R) (row : ℕ) : List ℕ :=
  (prepared.historyTokens.drop (prepared.historyBegin row)).take (prepared.historyLength row)

/-- Device buffers that hold the part of a row; the rest of the buffers is arbitrary. -/
def PreparedBatch.CopiedRow (prepared : PreparedBatch R) (tokensDevice countsDevice : ℕ → ℕ)
    (row : ℕ) : Prop :=
  ∀ i < prepared.historyLength row,
    tokensDevice (prepared.historyBegin row + i) =
        prepared.historyTokens.getD (prepared.historyBegin row + i) 0 ∧
      countsDevice (prepared.historyBegin row + i) =
        prepared.historyCounts.getD (prepared.historyBegin row + i) 0

/-- The search in a slice agrees with the host's penalties for one row. -/
structure SearchAgrees (vocab : ℕ) (params : SamplingParams R) (history : List ℕ)
    (slice : HistorySlice) : Prop where
  finds_iff : ∀ token < vocab, slice.Finds token ↔ params.hasPenalties ∧ token ∈ history
  count_eq : ∀ token, slice.Finds token → slice.counts (slice.search token) = history.count token
  host_iff : ∀ token n, slice.Finds token ∧ slice.counts (slice.search token) = n ↔
    (token, n) ∈ hostCounts params vocab history
  score_eq : ∀ hash (logits : List (Extended R)), logits.length = vocab → ∀ token < vocab,
    widePenalizedScore logits token slice params.repetitionPenalty =
      (wideSamplingScores hash logits params history).getD token default

theorem mem_penalizedHistory {params : SamplingParams R} {history : List ℕ} {token : ℕ} :
    token ∈ penalizedHistory params history ↔ params.hasPenalties ∧ token ∈ history := by
  rw [penalizedHistory]
  split_ifs with h
  · exact ⟨fun hmem => ⟨h.1, hmem⟩, And.right⟩
  · simp only [List.not_mem_nil, false_iff]
    exact fun hmem => h ⟨hmem.1, List.ne_nil_of_mem hmem.2⟩

/-- A slice that holds the counts of a row agrees with the host. -/
theorem searchAgrees_of_holds {vocab : ℕ} {params : SamplingParams R} {history : List ℕ}
    {slice : HistorySlice} {counts : List (ℕ × ℕ)} (h : slice.Holds counts)
    (hcounts : AscendingCounts vocab (penalizedHistory params history) counts) :
    SearchAgrees vocab params history slice := by
  have hhost (token n : ℕ) : slice.Finds token ∧ slice.counts (slice.search token) = n ↔
      token < vocab ∧ token ∈ penalizedHistory params history ∧
        n = (penalizedHistory params history).count token :=
    (h.finds_iff hcounts token n).trans (hcounts.mem_iff token n)
  have hfinds (token : ℕ) : slice.Finds token ↔
      token < vocab ∧ token ∈ penalizedHistory params history := by
    constructor
    · intro hfound
      obtain ⟨hlt, hmem, -⟩ := (hhost token _).mp ⟨hfound, rfl⟩
      exact ⟨hlt, hmem⟩
    · rintro ⟨hlt, hmem⟩
      exact ((hhost token _).mpr ⟨hlt, hmem, rfl⟩).1
  refine ⟨fun token htoken => ?_, fun token hfound => ?_, fun token n => ?_,
    fun hash logits hlogits token htoken => ?_⟩
  · rw [hfinds, mem_penalizedHistory]
    exact and_iff_right htoken
  · obtain ⟨-, hmem, hcount⟩ := (hhost token _).mp ⟨hfound, rfl⟩
    obtain ⟨hpenalties, hmem⟩ := mem_penalizedHistory.mp hmem
    rw [hcount, penalizedHistory, if_pos ⟨hpenalties, List.ne_nil_of_mem hmem⟩]
  · rw [hhost, mem_hostCounts]
  · have hget : token < logits.length := hlogits ▸ htoken
    rw [wideSamplingScores_mapIdx, widePenalizedScore]
    simp only [List.getD_eq_getElem?_getD, List.getElem?_mapIdx, List.getElem?_eq_getElem hget,
      Option.map_some, Option.getD_some, entry]
    by_cases hmem : token ∈ penalizedHistory params history
    · have hfound := (hfinds token).mpr ⟨htoken, hmem⟩
      obtain ⟨-, -, hcount⟩ := (hhost token _).mp ⟨hfound, rfl⟩
      rw [if_pos hfound, if_pos hmem, WideScore.record, hcount]
    · rw [if_neg fun hfound => hmem ((hfinds token).mp hfound).2, if_neg hmem]

section Rows

variable {vocab row : ℕ} {rows : List (SamplingParams R × List ℕ)} {prepared : PreparedBatch R}
  {entries : List (List (ℕ × ℕ))}

namespace Flattened

theorem offset (h : Flattened vocab rows prepared entries) (hrow : row ≤ entries.length) :
    prepared.historyOffsets.getD row 0 = (entries.take row).flatten.length := by
  rw [h.offsets, List.getD_eq_getElem?_getD, List.getElem?_map, List.getElem?_range (by omega)]
  rfl

theorem partition (h : Flattened vocab rows prepared entries) :
    OffsetsPartition prepared rows.length := by
  have hrows := h.rows.length_eq
  refine ⟨?_, ?_, ?_, ?_, ?_⟩
  · rw [h.offsets, List.length_map, List.length_range, hrows]
  · rw [h.offset (Nat.zero_le _)]
    rfl
  · rw [hrows, h.offset (Nat.le_refl _), List.take_length, h.tokens, List.length_map]
  · rw [h.offsets, List.pairwise_map]
    refine List.pairwise_lt_range.imp fun {r r'} hr => ?_
    obtain ⟨later, hlater⟩ := List.take_prefix_take_left (l := entries) hr.le
    rw [← hlater, List.flatten_append, List.length_append]
    exact Nat.le_add_right _ _
  · rw [h.counts, h.tokens, List.length_map, List.length_map]

/-- The part of a row is its own list. -/
theorem part (h : Flattened vocab rows prepared entries) {counts : List (ℕ × ℕ)}
    (hrow : entries[row]? = some counts) :
    prepared.historyLength row = counts.length ∧
      (∀ i < counts.length, prepared.historyTokens[prepared.historyBegin row + i]? =
        counts[i]?.map Prod.fst) ∧
      ∀ i < counts.length, prepared.historyCounts[prepared.historyBegin row + i]? =
        counts[i]?.map Prod.snd := by
  obtain ⟨hlt, rfl⟩ := List.getElem?_eq_some_iff.mp hrow
  have hbegin : prepared.historyBegin row = (entries.take row).flatten.length := h.offset hlt.le
  have hsplit : entries.flatten =
      (entries.take row).flatten ++ (entries[row] ++ (entries.drop (row + 1)).flatten) := by
    rw [← List.flatten_cons, List.getElem_cons_drop, ← List.flatten_append, List.take_append_drop]
  have hget (i : ℕ) (hi : i < entries[row].length) :
      entries.flatten[prepared.historyBegin row + i]? = entries[row][i]? := by
    rw [hsplit, hbegin, List.getElem?_append_right (by omega), Nat.add_sub_cancel_left,
      List.getElem?_append_left hi]
  refine ⟨?_, fun i hi => ?_, fun i hi => ?_⟩
  · rw [PreparedBatch.historyLength, hbegin, h.offset hlt, List.take_add_one, hrow,
      List.flatten_append, List.length_append, Nat.add_sub_cancel_left, Option.toList_some,
      List.flatten_singleton]
  · rw [h.tokens, List.getElem?_map, hget i hi]
  · rw [h.counts, List.getElem?_map, hget i hi]

/-- The slice of a row holds its own list, whatever the buffers hold elsewhere. -/
theorem holds (h : Flattened vocab rows prepared entries) {counts : List (ℕ × ℕ)}
    (hrow : entries[row]? = some counts) {tokensDevice countsDevice : ℕ → ℕ}
    (hcopied : prepared.CopiedRow tokensDevice countsDevice row) :
    (prepared.slice tokensDevice countsDevice row).Holds counts := by
  obtain ⟨hlength, htokens, hcounts⟩ := h.part hrow
  refine ⟨hlength, fun i hi => ?_⟩
  obtain ⟨htoken, hcount⟩ := hcopied i hi
  have hlt : i < counts.length := hlength ▸ hi
  simp only [PreparedBatch.slice, htoken, hcount, List.getD_eq_getElem?_getD, htokens i hlt,
    hcounts i hlt, List.getElem?_eq_getElem hlt, Option.map_some, Option.getD_some]

theorem rowTokens_eq (h : Flattened vocab rows prepared entries) {counts : List (ℕ × ℕ)}
    (hrow : entries[row]? = some counts) : prepared.rowTokens row = counts.map Prod.fst := by
  obtain ⟨hlength, htokens, -⟩ := h.part hrow
  refine List.ext_getElem? fun i => ?_
  rw [PreparedBatch.rowTokens, hlength, List.getElem?_take, List.getElem?_map]
  split_ifs with hi
  · rw [List.getElem?_drop, htokens i hi]
  · rw [List.getElem?_eq_none (not_lt.mp hi), Option.map_none]

end Flattened

end Rows

/-- The histories of an accepted batch: the offsets cut the arrays into one part for each row, the part
of a row is ascending and inside the vocabulary, and the search in it agrees with the host's penalties
for that row, whatever the device buffers hold outside it. -/
theorem prepareBatch_history {debug : Extended R → String} {params : List (SamplingParams R)}
    {tokenHistory : List (List ℕ)} {vocab : ℕ} {prepared : PreparedBatch R}
    (h : prepareBatch debug params tokenHistory vocab = .ok prepared) :
    OffsetsPartition prepared (params.zip tokenHistory).length ∧
    ∀ row rowParams history, (params.zip tokenHistory)[row]? = some (rowParams, history) →
      (prepared.rowTokens row).Pairwise (· < ·) ∧
      (∀ token ∈ prepared.rowTokens row, token < vocab) ∧
      ∀ tokensDevice countsDevice, prepared.CopiedRow tokensDevice countsDevice row →
        SearchAgrees vocab rowParams history (prepared.slice tokensDevice countsDevice row) := by
  obtain ⟨entries, hentries⟩ := flattened_prepareBatch h
  refine ⟨hentries.partition, fun row rowParams history hrow => ?_⟩
  obtain ⟨counts, hcounts, hascending⟩ : ∃ counts, entries[row]? = some counts ∧
      AscendingCounts vocab (penalizedHistory rowParams history) counts := by
    have hlt : row < entries.length := by
      rw [← hentries.rows.length_eq]
      exact (List.getElem?_eq_some_iff.mp hrow).1
    obtain ⟨owner, howner, hcounts⟩ :=
      getElem?_of_forall₂ hentries.rows (List.getElem?_eq_getElem hlt)
    obtain rfl := Option.some.inj (hrow.symm.trans howner)
    exact ⟨entries[row], List.getElem?_eq_getElem hlt, hcounts⟩
  refine ⟨?_, fun token htoken => ?_, fun tokensDevice countsDevice hcopied =>
    searchAgrees_of_holds (hentries.holds hcounts hcopied) hascending⟩
  · rw [hentries.rowTokens_eq hcounts]
    exact hascending.ascending
  · rw [hentries.rowTokens_eq hcounts] at htoken
    obtain ⟨⟨t, n⟩, hmem, rfl⟩ := List.mem_map.mp htoken
    exact ((hascending.mem_iff t n).mp hmem).1

/-- A batch of a row with penalties, whose history leaves the vocabulary, and a row without. -/
def penalizedBatch : Except String (PreparedBatch ℚ) :=
  prepareBatch (fun _ => "")
    [⟨0, none, none, 1, finite 1, 0, 0⟩, ⟨0, none, none, 1, 0, 0, 0⟩] [[2, 9, 0, 2], [1]] 4

theorem prepareBatch_history_example : ∃ prepared, penalizedBatch = .ok prepared ∧
    prepared.historyTokens = [0, 2] ∧ prepared.historyCounts = [1, 2] ∧
    prepared.historyOffsets = [0, 2, 2] ∧ OffsetsPartition prepared 2 := by
  obtain ⟨prepared, hprepared, htokens, hcounts, hoffsets⟩ : ∃ prepared,
      penalizedBatch = .ok prepared ∧ prepared.historyTokens = [0, 2] ∧
        prepared.historyCounts = [1, 2] ∧ prepared.historyOffsets = [0, 2, 2] :=
    ⟨_, rfl, rfl, rfl, rfl⟩
  exact ⟨prepared, hprepared, htokens, hcounts, hoffsets, (prepareBatch_history hprepared).1⟩

end VllmOxide.Sampler
