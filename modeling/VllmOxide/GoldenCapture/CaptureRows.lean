import VllmOxide.GoldenCapture.CaptureReader

/-!
# The rows of an artifact

Both checks of an artifact accept a row by comparing it with the rows before it. The rows that are
accepted one after the other stand request by request, and within a request step by step; they are
finite and have one width. A body is accepted if it consists of such rows and one trailer at the end.

## Main definitions

* `Fits`: a row may follow some rows.
* `Chain`: every row follows the rows before it.
* `Scanner`: a check of a body that reads rows and then a trailer.

## Main results

* `Scanner.foldlM_eq_ok_iff`: which bodies a scanner accepts.
* `ArtifactScan.scanner`, `CaptureScan.scanner`: the checks of the producer and of the consumer.
-/

namespace VllmOxide.GoldenCapture

/-! ### Rows that follow one another -/

/-- A row may follow some rows. -/
structure Fits (bindings : List RequestBinding) (rows : List ArtifactRow) (row : ArtifactRow) :
    Prop where
  rowIndex : row.rowIndex = rows.length
  ordered : ∀ last ∈ rows.getLast?, last.inputPosition ≤ row.inputPosition
  binding : ∃ binding, bindings[row.inputPosition]? = some binding ∧
    row.requestId = binding.requestId
  completionStep : row.completionStep =
    rows.countP fun other => decide (other.inputPosition = row.inputPosition)
  dtype : row.dtype = LOGITS_DTYPE
  rowShape_ne : row.rowShape ≠ 0
  rowShape : row.rowShape = row.logits.length
  finite : ∀ value ∈ row.logits, value.isFinite = true
  width : ∀ last ∈ rows.getLast?, last.rowShape = row.rowShape

/-- Every row follows the rows before it. -/
inductive Chain (good : List ArtifactRow → ArtifactRow → Prop) : List ArtifactRow → Prop
  | nil : Chain good []
  | snoc {rows : List ArtifactRow} {row : ArtifactRow} (h : Chain good rows)
      (hrow : good rows row) : Chain good (rows ++ [row])

theorem Chain.imp {good good' : List ArtifactRow → ArtifactRow → Prop} {rows : List ArtifactRow}
    (h : Chain good rows) (himp : ∀ before row, good before row → good' before row) :
    Chain good' rows := by
  induction h with
  | nil => exact .nil
  | snoc _ hrow ih => exact .snoc ih (himp _ _ hrow)

theorem chain_append_singleton {good : List ArtifactRow → ArtifactRow → Prop}
    {rows : List ArtifactRow} {row : ArtifactRow} :
    Chain good (rows ++ [row]) ↔ Chain good rows ∧ good rows row := by
  constructor
  · intro h
    generalize hall : rows ++ [row] = all at h
    cases h with
    | nil => simp at hall
    | snoc h hrow =>
      obtain ⟨rfl, hlast⟩ := List.append_inj' hall rfl
      obtain rfl := List.singleton_inj.mp hlast
      exact ⟨h, hrow⟩
  · rintro ⟨h, hrow⟩
    exact .snoc h hrow

/-! ### Scanners -/

/-- A check of a body, line by line: it knows the rows it has read, and after a trailer it accepts
nothing. -/
structure Scanner (σ : Type) where
  line : σ → ArtifactLine → Except String σ
  /-- The state after some rows. -/
  after : List ArtifactRow → σ
  /-- The state after some rows and a trailer. -/
  closed : List ArtifactRow → ArtifactTrailer → σ
  /-- A row that is accepted after some rows. -/
  good : List ArtifactRow → ArtifactRow → Prop
  line_row : ∀ rows row s, line (after rows) (.row row) = .ok s ↔
    good rows row ∧ s = after (rows ++ [row])
  line_trailer : ∀ rows trailer, line (after rows) (.trailer trailer) = .ok (closed rows trailer)
  line_header : ∀ rows header s, line (after rows) (.header header) ≠ .ok s
  line_closed : ∀ rows trailer line' s, line (closed rows trailer) line' ≠ .ok s

namespace Scanner

variable {σ : Type} (scanner : Scanner σ)

/-- **What a scanner accepts**: rows that follow one another, or such rows and one trailer. -/
theorem foldlM_eq_ok_iff {lines : List ArtifactLine} {s : σ} :
    lines.foldlM scanner.line (scanner.after []) = .ok s ↔
      ∃ rows, Chain scanner.good rows ∧ (lines = rows.map .row ∧ s = scanner.after rows ∨
        ∃ trailer, lines = rows.map .row ++ [.trailer trailer] ∧ s = scanner.closed rows trailer) := by
  induction lines using List.reverseRecOn generalizing s with
  | nil =>
    constructor
    · intro h
      exact ⟨[], .nil, .inl ⟨rfl, (Except.ok.inj h).symm⟩⟩
    · rintro ⟨rows, -, ⟨hlines, rfl⟩ | ⟨trailer, hlines, -⟩⟩
      · obtain rfl := List.map_eq_nil_iff.mp hlines.symm
        rfl
      · simp at hlines
  | append_singleton lines line ih =>
    rw [List.foldlM_append]
    constructor
    · intro h
      obtain ⟨s₁, hlines, hlast⟩ := exists_of_bind_ok h
      rw [List.foldlM_cons] at hlast
      obtain ⟨s₂, hline, hend⟩ := exists_of_bind_ok hlast
      obtain rfl := Except.ok.inj hend
      obtain ⟨rows, hchain, ⟨rfl, rfl⟩ | ⟨trailer, rfl, rfl⟩⟩ := ih.mp hlines
      · cases line with
        | header header => exact absurd hline (scanner.line_header rows header s₂)
        | row row =>
          obtain ⟨hgood, rfl⟩ := (scanner.line_row rows row s₂).mp hline
          exact ⟨rows ++ [row], .snoc hchain hgood, .inl ⟨by simp, rfl⟩⟩
        | trailer trailer =>
          rw [scanner.line_trailer] at hline
          exact ⟨rows, hchain, .inr ⟨trailer, rfl, (Except.ok.inj hline).symm⟩⟩
      · exact absurd hline (scanner.line_closed rows trailer line s₂)
    · rintro ⟨rows, hchain, ⟨hlines, rfl⟩ | ⟨trailer, hlines, rfl⟩⟩
      · cases rows using List.reverseRecOn with
        | nil => simp at hlines
        | append_singleton rows row =>
          rw [List.map_append] at hlines
          obtain ⟨rfl, hlast⟩ := List.append_inj' hlines rfl
          obtain rfl := List.singleton_inj.mp hlast
          obtain ⟨hchain, hgood⟩ := chain_append_singleton.mp hchain
          rw [ih.mpr ⟨rows, hchain, .inl ⟨rfl, rfl⟩⟩]
          change (scanner.line (scanner.after rows) (.row row) >>= pure) = _
          rw [(scanner.line_row rows row _).mpr ⟨hgood, rfl⟩]
          rfl
      · obtain ⟨rfl, hlast⟩ := List.append_inj' hlines rfl
        obtain rfl := List.singleton_inj.mp hlast
        rw [ih.mpr ⟨rows, hchain, .inl ⟨rfl, rfl⟩⟩]
        change (scanner.line (scanner.after rows) (.trailer trailer) >>= pure) = _
        rw [scanner.line_trailer]
        rfl

end Scanner

/-! ### What is known about the rows that have been read -/

/-- The number of rows of each request. -/
def positionCounts (requests : ℕ) (rows : List ArtifactRow) : List ℕ :=
  (List.range requests).map fun i => rows.countP fun row => decide (row.inputPosition = i)

/-- The tokens of the rows of each request. -/
def tokensByPosition (requests : ℕ) (rows : List ArtifactRow) : List (List Token) :=
  (List.range requests).map fun i =>
    (rows.filter fun row => decide (row.inputPosition = i)).map (·.selectedToken)

theorem modify_map_range {α : Type} {n i : ℕ} (f : ℕ → α) (g : α → α) :
    ((List.range n).map f).modify i g =
      (List.range n).map fun j => if j = i then g (f j) else f j := by
  refine List.ext_getElem (by simp) fun j hj hj' => ?_
  simp only [List.getElem_modify, List.getElem_map, List.getElem_range, eq_comm]

variable {requests : ℕ} {rows : List ArtifactRow} {row : ArtifactRow}

theorem positionCounts_append : positionCounts requests (rows ++ [row]) =
    (positionCounts requests rows).modify row.inputPosition (· + 1) := by
  rw [positionCounts, positionCounts, modify_map_range]
  refine List.map_congr_left fun i _ => ?_
  rw [List.countP_append, List.countP_singleton]
  by_cases h : i = row.inputPosition
  · simp [h]
  · simp [h, Ne.symm h]

theorem tokensByPosition_append : tokensByPosition requests (rows ++ [row]) =
    (tokensByPosition requests rows).modify row.inputPosition (· ++ [row.selectedToken]) := by
  rw [tokensByPosition, tokensByPosition, modify_map_range]
  refine List.map_congr_left fun i _ => ?_
  rw [List.filter_append, List.map_append]
  by_cases h : i = row.inputPosition
  · simp [h]
  · simp [h, Ne.symm h]

theorem getD_positionCounts {i : ℕ} (hi : i < requests) :
    (positionCounts requests rows).getD i 0 =
      rows.countP fun row => decide (row.inputPosition = i) := by
  simp [positionCounts, List.getD_eq_getElem?_getD, hi]

theorem positionCounts_nil : positionCounts requests [] = List.replicate requests 0 := by
  simp [positionCounts]

theorem tokensByPosition_nil : tokensByPosition requests [] = List.replicate requests [] := by
  simp [tokensByPosition]

/-! ### The two scanners -/

/-- The checks that both scanners make. -/
theorem fits_iff {bindings : List RequestBinding} {binding : RequestBinding}
    (hbinding : bindings[row.inputPosition]? = some binding) :
    Fits bindings rows row ↔
      ¬ row.rowIndex ≠ rows.length ∧
      ¬ ((rows.getLast?.map (·.inputPosition)).any fun previous =>
        decide (row.inputPosition < previous)) = true ∧
      ¬ row.requestId ≠ binding.requestId ∧
      ¬ row.completionStep ≠ (positionCounts bindings.length rows).getD row.inputPosition 0 ∧
      ¬ (row.dtype ≠ LOGITS_DTYPE ∨ row.rowShape = 0 ∨ row.rowShape ≠ row.logits.length ∨
        (row.logits.any fun value => !value.isFinite) = true) ∧
      ¬ ((rows.getLast?.map (·.rowShape)).any fun width => decide (width ≠ row.rowShape)) = true := by
  have hlt : row.inputPosition < bindings.length := (List.getElem?_eq_some_iff.mp hbinding).1
  rw [getD_positionCounts hlt]
  constructor
  · rintro ⟨hindex, hordered, ⟨other, hother, hid⟩, hstep, hdtype, hne, hshape, hfinite, hwidth⟩
    obtain rfl := Option.some.inj (hbinding.symm.trans hother)
    refine ⟨not_not.mpr hindex, ?_, not_not.mpr hid, not_not.mpr hstep, ?_, ?_⟩
    · cases hlast : rows.getLast? with
      | none => simp
      | some last => simpa using hordered last hlast
    · simpa [hdtype, hne, ← hshape] using hfinite
    · cases hlast : rows.getLast? with
      | none => simp
      | some last => simpa using hwidth last hlast
  · rintro ⟨hindex, hordered, hid, hstep, hvalues, hwidth⟩
    simp only [not_or, not_not] at hindex hid hstep hvalues
    obtain ⟨hdtype, hne, hshape, hfinite⟩ := hvalues
    refine ⟨hindex, fun last hlast => ?_, ⟨binding, hbinding, hid⟩, hstep, hdtype, hne, hshape,
      by simpa using hfinite, fun last hlast => ?_⟩
    · rw [Option.mem_def.mp hlast] at hordered
      simpa using hordered
    · rw [Option.mem_def.mp hlast] at hwidth
      simpa using hwidth

/-- The state of the producer's check after some rows. -/
def ArtifactScan.after (requests : ℕ) (rows : List ArtifactRow) : ArtifactScan where
  expectedSteps := positionCounts requests rows
  selectedTokens := tokensByPosition requests rows
  rowCount := rows.length
  vocabSize := rows.getLast?.map (·.rowShape)
  lastInputPosition := rows.getLast?.map (·.inputPosition)
  trailer := none

theorem ArtifactScan.after_append : ArtifactScan.after requests (rows ++ [row]) =
    { ArtifactScan.after requests rows with
      expectedSteps := (positionCounts requests rows).modify row.inputPosition (· + 1)
      selectedTokens :=
        (tokensByPosition requests rows).modify row.inputPosition (· ++ [row.selectedToken])
      rowCount := rows.length + 1
      vocabSize := some row.rowShape
      lastInputPosition := some row.inputPosition } := by
  simp [ArtifactScan.after, positionCounts_append, tokensByPosition_append]

/-- The producer's check of a body. -/
def ArtifactScan.scanner (bindings : List RequestBinding) : Scanner ArtifactScan where
  line scan line := scan.line bindings line
  after := ArtifactScan.after bindings.length
  closed rows trailer := { ArtifactScan.after bindings.length rows with trailer := some trailer }
  good := Fits bindings
  line_row rows row s := by
    simp only [ArtifactScan.line, bailIf_bind_eq_ok_iff]
    cases hbinding : bindings[row.inputPosition]? with
    | none =>
      refine iff_of_false (by simp) ?_
      rintro ⟨hfits, -⟩
      obtain ⟨binding, hsome, -⟩ := hfits.binding
      rw [hbinding] at hsome
      cases hsome
    | some binding =>
      simp only [bailIf_bind_eq_ok_iff]
      rw [fits_iff hbinding, after_append]
      constructor
      · rintro ⟨-, hindex, hordered, hid, hstep, hvalues, hwidth, hs⟩
        exact ⟨⟨hindex, hordered, hid, hstep, hvalues, hwidth⟩, (Except.ok.inj hs).symm⟩
      · rintro ⟨⟨hindex, hordered, hid, hstep, hvalues, hwidth⟩, rfl⟩
        exact ⟨by simp [ArtifactScan.after], hindex, hordered, hid, hstep, hvalues, hwidth, rfl⟩
  line_trailer rows trailer := by
    rw [ArtifactScan.line, bailIf_of_not (by simp [ArtifactScan.after])]
    rfl
  line_header rows header s := nofun
  line_closed rows trailer line s h := by
    cases line with
    | header header => cases h
    | row row =>
      rw [ArtifactScan.line, bailIf_bind_eq_ok_iff] at h
      exact h.1 rfl
    | trailer trailer =>
      rw [ArtifactScan.line, bailIf_bind_eq_ok_iff] at h
      exact h.1 rfl

/-- A row brings the token of its step in the outputs. -/
def Answers (outputs : List RequestOutput) (row : ArtifactRow) : Prop :=
  (outputs[row.inputPosition]?.map (·.tokenIds)).bind (·[row.completionStep]?) =
    some row.selectedToken

/-- The state of the consumer's check after some rows. -/
def CaptureScan.after (requests : ℕ) (rows : List ArtifactRow) : CaptureScan where
  expectedSteps := positionCounts requests rows
  tokensByInput := tokensByPosition requests rows
  logits := rows.flatMap (·.logits)
  rowCount := rows.length
  vocabSize := rows.getLast?.map (·.rowShape)
  lastInputPosition := rows.getLast?.map (·.inputPosition)
  trailer := none

theorem CaptureScan.after_append : CaptureScan.after requests (rows ++ [row]) =
    { CaptureScan.after requests rows with
      expectedSteps := (positionCounts requests rows).modify row.inputPosition (· + 1)
      tokensByInput :=
        (tokensByPosition requests rows).modify row.inputPosition (· ++ [row.selectedToken])
      logits := rows.flatMap (·.logits) ++ row.logits
      rowCount := rows.length + 1
      vocabSize := some row.rowShape
      lastInputPosition := some row.inputPosition } := by
  simp [CaptureScan.after, positionCounts_append, tokensByPosition_append]

/-- The consumer's check of a body. -/
def CaptureScan.scanner (bindings : List RequestBinding) (outputs : List RequestOutput) :
    Scanner CaptureScan where
  line scan line := scan.line bindings outputs line
  after := CaptureScan.after bindings.length
  closed rows trailer := { CaptureScan.after bindings.length rows with trailer := some trailer }
  good rows row := Fits bindings rows row ∧ Answers outputs row
  line_row rows row s := by
    simp only [CaptureScan.line, bailIf_bind_eq_ok_iff]
    cases hbinding : bindings[row.inputPosition]? with
    | none =>
      refine iff_of_false (by simp) ?_
      rintro ⟨⟨hfits, -⟩, -⟩
      obtain ⟨binding, hsome, -⟩ := hfits.binding
      rw [hbinding] at hsome
      cases hsome
    | some binding =>
      simp only [bailIf_bind_eq_ok_iff]
      rw [fits_iff hbinding, after_append, Answers]
      cases htoken : (outputs[row.inputPosition]?.map (·.tokenIds)).bind
          (·[row.completionStep]?) with
      | none => exact iff_of_false (by simp) (by simp)
      | some token =>
        simp only [bailIf_bind_eq_ok_iff, Option.some.injEq]
        constructor
        · rintro ⟨-, hindex, hordered, hid, hstep, htoken, hvalues, hwidth, hs⟩
          exact ⟨⟨⟨hindex, hordered, hid, hstep, hvalues, hwidth⟩, (not_not.mp htoken).symm⟩,
            (Except.ok.inj hs).symm⟩
        · rintro ⟨⟨⟨hindex, hordered, hid, hstep, hvalues, hwidth⟩, htoken⟩, rfl⟩
          exact ⟨by simp [CaptureScan.after], hindex, hordered, hid, hstep,
            not_not.mpr htoken.symm, hvalues, hwidth, rfl⟩
  line_trailer rows trailer := by
    rw [CaptureScan.line, bailIf_of_not (by simp [CaptureScan.after])]
    rfl
  line_header rows header s := nofun
  line_closed rows trailer line s h := by
    cases line with
    | header header => cases h
    | row row =>
      rw [CaptureScan.line, bailIf_bind_eq_ok_iff] at h
      exact h.1 rfl
    | trailer trailer =>
      rw [CaptureScan.line, bailIf_bind_eq_ok_iff] at h
      exact h.1 rfl

end VllmOxide.GoldenCapture
