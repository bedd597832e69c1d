import VllmOxide.GoldenCapture.CaptureChecks

/-!
# The round trip of a diagnostic capture

The engine hands over the rows of many requests interleaved. They are recorded, published and read by
the consumer, which returns all of them in request-major order. What the consumer accepts, from whatever
source, has one row for each completion step of the outputs and no others.

## Main definitions

* `EngineStepCapture.WellFormed`: an engine step with one row of logits for each row identity.
* `CaptureSession.Bound.Outputs`: the outputs of a capture.
* `outputSteps`: the completion steps of some outputs.

## Main results

* `CaptureSession.Bound.Complete.isArtifact`: the artifact of a complete session.
* `readAndValidateCapture_finish`: what is recorded is read back.
* `of_readAndValidateCapture`: what the consumer accepts.
* `capture_round_trip`: both directions.
-/

namespace VllmOxide.GoldenCapture

open CaptureSession Json

/-! ### The artifact of a complete session -/

namespace CaptureSession

/-- The rows of some requests are the rows that belong to them. -/
theorem perm_rowsOf {rows : List HostCaptureRow} {requestIds : List ℕ} (h : requestIds.Nodup) :
    (requestIds.flatMap (rowsOf rows)).Perm
      (rows.filter fun row => decide (row.requestId ∈ requestIds)) := by
  induction requestIds with
  | nil => simp
  | cons id rest ih =>
    rw [List.nodup_cons] at h
    have hsplit := List.filter_append_perm (fun row : HostCaptureRow => decide (row.requestId = id))
      (rows.filter fun row => decide (row.requestId ∈ id :: rest))
    rw [List.filter_filter, List.filter_filter] at hsplit
    rw [List.flatMap_cons]
    refine ((ih h.2).append_left _).trans ((List.Perm.of_eq ?_).trans hsplit)
    congr 1
    · refine List.filter_congr fun row _ => ?_
      by_cases hid : row.requestId = id <;> simp [hid]
    · refine List.filter_congr fun row _ => ?_
      by_cases hid : row.requestId = id
      · simp [hid, h.1]
      · simp [hid]

namespace Bound

/-- The sizes of a capture fit the machine words. -/
structure InRange (requestIds : List ℕ) (width : ℕ) (rows : List HostCaptureRow) : Prop where
  requests : requestIds.length ≤ USIZE_MAX
  ids : ∀ id ∈ requestIds, id ≤ USIZE_MAX
  rowWidth : width ≤ USIZE_MAX
  size : rows.length * width ≤ USIZE_MAX

/-- The outputs of a capture: the recorded tokens of each request, all finished. -/
structure Outputs (requestIds : List ℕ) (rows : List HostCaptureRow) (outputs : List RequestOutput) :
    Prop where
  ids : outputs.map (·.requestId) = requestIds
  finished : ∀ output ∈ outputs, output.finished = true
  tokens : outputs.map (·.tokenIds) =
    requestIds.map fun id => (rowsOf rows id).map (·.selectedToken)

variable {requestIds : List ℕ} {rows : List HostCaptureRow} {width : ℕ}
  {outputs : List RequestOutput}

/-- Every recorded row is in the artifact, once. -/
theorem Complete.length_artifact (h : Complete requestIds width rows) (hnodup : requestIds.Nodup) :
    (artifact requestIds rows).length = rows.length := by
  have hall : rows.filter (fun row => decide (row.requestId ∈ requestIds)) = rows :=
    List.filter_eq_self.mpr fun row hrow => decide_eq_true (h.ids row hrow)
  have hperm := @perm_rowsOf rows _ hnodup
  rw [hall] at hperm
  have hids := congrArg List.length (hostRow_artifact requestIds rows)
  rw [List.length_map] at hids
  exact hids.trans hperm.length_eq

/-- The width of the recorded rows is the one of the artifact. -/
theorem Complete.vocabSize (h : Complete requestIds width rows) (hnodup : requestIds.Nodup) :
    rows.getLast?.map (·.logits.length) =
      (artifact requestIds rows).getLast?.map (·.rowShape) := by
  have hlength := h.length_artifact hnodup
  cases hlast : rows.getLast? with
  | none =>
    obtain rfl := List.getLast?_eq_none_iff.mp hlast
    rw [List.eq_nil_of_length_eq_zero hlength]
    rfl
  | some last =>
    cases hlast' : (artifact requestIds rows).getLast? with
    | none =>
      rw [List.getLast?_eq_none_iff.mp hlast', List.length_nil, eq_comm,
        List.length_eq_zero_iff] at hlength
      rw [hlength] at hlast
      cases hlast
    | some last' =>
      have hvalues := h.requestMajor.values last' (List.mem_of_getLast? hlast')
      exact congrArg some ((h.width last (List.mem_of_getLast? hlast)).trans hvalues.2.1.symm)

/-- The lines of the artifact can be read back. -/
theorem Complete.readable (h : Complete requestIds width rows) (hnodup : requestIds.Nodup)
    (hrange : InRange requestIds width rows) (callId : String) :
    ∀ line ∈ artifactLines callId (bindings requestIds) (artifact requestIds rows)
      (rows.getLast?.map (·.logits.length)), line.Readable := by
  have hmajor := h.requestMajor
  have hlength := h.length_artifact hnodup
  have hrows : rows.length ≤ USIZE_MAX :=
    (Nat.le_mul_of_pos_right _ (Nat.pos_of_ne_zero h.width_ne)).trans hrange.size
  have hposition : ∀ binding ∈ bindings requestIds,
      binding.inputPosition ≤ USIZE_MAX ∧ binding.requestId ≤ USIZE_MAX := by
    intro binding hbinding
    obtain ⟨⟨id, i⟩, hmem, rfl⟩ := List.mem_map.mp hbinding
    have hid : requestIds[i]? = some id := List.mk_mem_zipIdx_iff_getElem?.mp hmem
    exact ⟨(List.getElem?_eq_some_iff.mp hid).1.le.trans hrange.requests,
      hrange.ids id (List.mem_of_getElem? hid)⟩
  intro line hline
  rcases List.mem_cons.mp hline with rfl | hline
  · exact ⟨by simp [SCHEMA_VERSION], hposition⟩
  rcases List.mem_append.mp hline with hline | hline
  · obtain ⟨row, hrow, rfl⟩ := List.mem_map.mp hline
    obtain ⟨binding, hbinding, hmem, -⟩ := of_mem_artifact hrow
    obtain ⟨-, hshape, -, hfinite⟩ := hmajor.values row hrow
    have hindex : row.rowIndex ∈ List.range (artifact requestIds rows).length :=
      hmajor.rowIndex ▸ List.mem_map_of_mem hrow
    have hstep : row.completionStep ∈ List.range (rowsOf rows binding.requestId).length :=
      h.steps binding.requestId ▸ List.mem_map_of_mem hmem
    have hle : (rowsOf rows binding.requestId).length ≤ rows.length := List.length_filter_le _ _
    have hid : row.requestId = binding.requestId := of_decide_eq_true (List.mem_filter.mp hmem).2
    rw [List.mem_range] at hindex hstep
    have hlt := (List.getElem?_eq_some_iff.mp hbinding).1
    rw [length_bindings] at hlt
    exact ⟨by omega, hlt.le.trans hrange.requests,
      hid ▸ (hposition binding (List.mem_of_getElem? hbinding)).2, by omega,
      hshape.le.trans hrange.rowWidth, hfinite⟩
  · obtain rfl := List.mem_singleton.mp hline
    refine ⟨hlength ▸ hrows, hlength ▸ hrows, ?_⟩
    cases hlast : rows.getLast? with
    | none => exact Nat.zero_le _
    | some last => exact (h.width last (List.mem_of_getLast? hlast)).le.trans hrange.rowWidth

/-- **The artifact of a complete session** passes the checks. -/
theorem Complete.isArtifact (h : Complete requestIds width rows) (hnodup : requestIds.Nodup)
    (houtputs : Outputs requestIds rows outputs) (callId : String) :
    Artifact callId (bindings requestIds) (artifact requestIds rows) outputs
      (artifactLines callId (bindings requestIds) (artifact requestIds rows)
        (rows.getLast?.map (·.logits.length))) where
  decoded := by rw [h.vocabSize hnodup]
  chain := chain_of_splits fun _ _ _ => h.requestMajor.fits
  answered := by
    obtain ⟨rfl, hfinished, -⟩ := houtputs
    refine List.forall₂_iff_get.mpr ⟨by simp [length_bindings], fun i hi ho => ?_⟩
    have hget := getElem?_bindings (outputs.map (·.requestId)) i
    rw [List.getElem?_eq_getElem hi, List.getElem?_map, List.getElem?_eq_getElem ho] at hget
    have hbinding := Option.some.inj hget
    refine ⟨?_, hfinished _ (List.get_mem outputs ⟨i, ho⟩)⟩
    show (bindings (outputs.map (·.requestId)))[i].requestId = outputs[i].requestId
    rw [hbinding]
  tokens := by
    rw [houtputs.tokens, tokensByPosition, length_bindings]
    refine List.ext_getElem (by simp) fun i hi hi' => ?_
    have hlt : i < requestIds.length := by simpa using hi'
    have hbinding : (bindings requestIds)[i]? = some ⟨i, requestIds[i]⟩ := by
      rw [getElem?_bindings, List.getElem?_eq_getElem hlt]
      rfl
    have hrows := congrArg (List.map (·.selectedToken)) 
      (@filter_artifact requestIds rows i _ hbinding)
    rw [List.map_map] at hrows
    simp only [List.getElem_map, List.getElem_range]
    exact hrows

end Bound

/-! ### Recording a complete session -/

/-- Rows that may be recorded one after the other. -/
theorem takesAll_of_splits {rows : List HostCaptureRow} :
    ∀ {session : CaptureSession}, (∀ before row after, rows = before ++ row :: after →
      (before.foldl push session).Takes row) → session.TakesAll rows := by
  induction rows with
  | nil => exact fun _ => trivial
  | cons row rest ih =>
    intro session h
    refine ⟨h [] row rest rfl, ih fun before other after hsplit => h (row :: before) other after ?_⟩
    rw [hsplit, List.cons_append]

/-- The rows of a complete session may be recorded in their order. -/
theorem Bound.takesAll {callId : String} {requestIds : List ℕ} {start : CaptureSession}
    {rows : List HostCaptureRow} {width : ℕ} (hbound : Bound callId requestIds start)
    (h : Bound.Complete requestIds width rows) : start.TakesAll rows := by
  refine takesAll_of_splits fun before row after hsplit => ?_
  have hrow : row ∈ rows := by simp [hsplit]
  have hlength := h.width row hrow
  have hspools := hbound.spools_foldl_push before
  refine ⟨⟨fun hempty => h.width_ne ?_, h.finite row hrow, fun vocabSize hwidth => ?_⟩, ?_⟩
  · rw [← hlength, hempty]
    rfl
  · rw [(config_foldl_push before start).2.2, hbound.eq] at hwidth
    cases hlast : before.getLast? with
    | none =>
      rw [hlast] at hwidth
      cases hwidth
    | some last =>
      rw [hlast] at hwidth
      have hmem : last ∈ rows := by
        rw [hsplit]
        exact List.mem_append_left _ (List.mem_of_getLast? hlast)
      exact (Option.some.inj hwidth).symm.trans ((h.width last hmem).trans hlength.symm)
  · obtain ⟨i, hi⟩ := List.mem_iff_getElem?.mp (h.ids row hrow)
    have hbinding : (⟨i, row.requestId⟩ : RequestBinding) ∈ Bound.bindings requestIds :=
      List.mem_map.mpr ⟨(row.requestId, i), List.mk_mem_zipIdx_iff_getElem?.mpr hi, rfl⟩
    rw [hspools]
    refine ⟨_, List.mem_map_of_mem hbinding, rfl, ?_⟩
    exact eq_length_of_split (h.steps row.requestId) hsplit (decide_eq_true rfl)

theorem recordRows_of_takesAll {rows : List HostCaptureRow} :
    ∀ {session : CaptureSession}, session.Distinct → session.TakesAll rows →
      recordRows .none rows session = .ok () (rows.foldl push session) := by
  induction rows with
  | nil => exact fun _ _ => rfl
  | cons row rest ih =>
    intro session hdistinct h
    rcases recordHostRow_cases hdistinct .none row with ⟨-, -, hrow⟩ | ⟨hnot, -⟩
    · simp only [recordRows, bind, EStateM.bind, hrow]
      exact ih (hdistinct.push row) h.2
    · exact absurd ⟨h.1, rfl⟩ hnot

end CaptureSession

/-- An engine step that hands over one row of logits for each of its row identities. -/
structure EngineStepCapture.WellFormed (step : EngineStepCapture) (width : ℕ) : Prop where
  dtype : step.dtype = "F32"
  dims : step.logits.dims = if step.rows = [] then [0, 0] else [step.rows.length, width]

/-- The rows of an engine step. -/
def EngineStepCapture.hostRows (step : EngineStepCapture) : List HostCaptureRow :=
  (CaptureCall.engineStep .none step).rows

/-- Recording one engine step. -/
theorem recordEngineStep_ok {step : EngineStepCapture} {width : ℕ} {session : CaptureSession}
    (h : step.WellFormed width) (hwidth : width ≠ 0) (hdistinct : session.Distinct)
    (hopen : session.failed = false) (htakes : session.TakesAll step.hostRows) :
    (CaptureCall.engineStep .none step).perform session =
      .ok () (step.hostRows.foldl push session) := by
  show recordEngineStep .none step session = _
  unfold recordEngineStep
  have hdims := h.dims
  by_cases hnone : step.rows = []
  · rw [if_pos hnone] at hdims
    have hno : step.hostRows = [] := by
      rw [EngineStepCapture.hostRows, CaptureCall.rows, CaptureSession.hostRows, hnone]
      rfl
    rw [if_pos hnone, if_neg (not_not.mpr hdims), hno]
    rfl
  · rw [if_neg hnone] at hdims
    have hstepWidth : step.width = width := by
      rw [EngineStepCapture.width, hdims]
      rfl
    have hrows : step.hostRows = CaptureSession.hostRows step width := by
      rw [EngineStepCapture.hostRows, CaptureCall.rows, hstepWidth]
    rw [if_neg hnone, hdims]
    simp only
    rw [if_neg (by simp [hwidth]), if_neg (not_not.mpr h.dtype)]
    show recordHostRows .none (CaptureSession.hostRows step width) session = _
    rw [recordHostRows, if_neg (by simp [hopen]), ← hrows]
    exact recordRows_of_takesAll hdistinct htakes

/-- The recording of engine steps. -/
theorem run_engineSteps {steps : List EngineStepCapture} {width : ℕ} (hwidth : width ≠ 0) :
    ∀ {session : CaptureSession}, (∀ step ∈ steps, step.WellFormed width) → session.Distinct →
      session.failed = false → session.TakesAll (steps.flatMap (·.hostRows)) →
      Run CaptureStep session (steps.map fun step => ⟨.engineStep .none step, .ok ()⟩)
        ((steps.flatMap (·.hostRows)).foldl push session) := by
  induction steps with
  | nil => exact fun _ _ _ _ => .nil
  | cons step rest ih =>
    intro session hsteps hdistinct hopen htakes
    rw [List.flatMap_cons, takesAll_append] at htakes
    have hfirst := recordEngineStep_ok (hsteps step List.mem_cons_self) hwidth hdistinct hopen htakes.1
    have hrest := ih (fun other hother => hsteps other (List.mem_cons_of_mem _ hother))
      (hdistinct.foldl_push step.hostRows)
      ((config_foldl_push step.hostRows session).2.1.trans hopen) htakes.2
    rw [List.flatMap_cons, List.foldl_append]
    exact (Run.single (.ok hfirst)).append hrest

/-- What is recorded and published is read back by the consumer. -/
theorem readAndValidateCapture_finish (callId : String) {requestIds : List ℕ} {width : ℕ}
    {steps : List EngineStepCapture} {outputs : List RequestOutput} (hnodup : requestIds.Nodup)
    (hsteps : ∀ step ∈ steps, step.WellFormed width)
    (hcomplete : Bound.Complete requestIds width (steps.flatMap (·.hostRows)))
    (hrange : Bound.InRange requestIds width (steps.flatMap (·.hostRows)))
    (houtputs : Bound.Outputs requestIds (steps.flatMap (·.hostRows)) outputs) :
    ∃ start session lines, (prepare callId).bindRequests requestIds = .ok start ∧
      Run CaptureStep start (steps.map fun step => ⟨.engineStep .none step, .ok ()⟩) session ∧
      session.finish false outputs = .ok lines ∧
      readAndValidateCapture lines callId outputs = .ok
        { logits := (requestIds.flatMap (rowsOf (steps.flatMap (·.hostRows)))).flatMap (·.logits)
          tensorShape := ((steps.flatMap (·.hostRows)).length,
            if steps.flatMap (·.hostRows) = [] then 0 else width)
          tokensByInput := outputs.map (·.tokenIds) } := by
  set rows := steps.flatMap (·.hostRows) with hrows
  obtain ⟨start, hbind⟩ : ∃ start, (prepare callId).bindRequests requestIds = .ok start :=
    ⟨_, bind_of_ok (bailIf_of_not (by simp [prepare])) (bind_of_ok
      (bailIf_of_not (not_not.mpr hnodup)) rfl)⟩
  have hbound := bound_of_bindRequests hbind
  have hconfig := config_foldl_push rows start
  have hstart : start.failed = false ∧ start.callId = callId ∧ start.vocabSize = none := by
    rw [hbound.eq]
    exact ⟨rfl, rfl, rfl⟩
  have hrun := run_engineSteps hcomplete.width_ne hsteps hbound.distinct hstart.1
    (hbound.takesAll hcomplete)
  have hartifact := hcomplete.isArtifact hnodup houtputs callId
  have hread : ∀ row ∈ rows, row.spoolRow.Readable := by
    intro row hrow
    have hstep : row.completionStep ∈ List.range (rowsOf rows row.requestId).length :=
      hcomplete.steps row.requestId ▸ List.mem_map_of_mem
        (List.mem_filter.mpr ⟨hrow, decide_eq_true rfl⟩)
    have hle : (rowsOf rows row.requestId).length ≤ rows.length := List.length_filter_le _ _
    have hsize := (Nat.le_mul_of_pos_right rows.length
      (Nat.pos_of_ne_zero hcomplete.width_ne)).trans hrange.size
    rw [List.mem_range] at hstep
    exact ⟨hrange.ids _ (hcomplete.ids row hrow), by
      show row.completionStep ≤ _
      omega, hcomplete.finite row hrow⟩
  have hbindings : (rows.foldl push start).spools.map (·.binding) = Bound.bindings requestIds := by
    rw [hbound.spools_foldl_push, List.map_map]
    exact List.map_id _
  have hvocabSize : (rows.foldl push start).vocabSize = rows.getLast?.map (·.logits.length) := by
    rw [hconfig.2.2, hstart.2.2, Option.or_none]
  have hcall : (rows.foldl push start).callId = callId := hconfig.1.trans hstart.2.1
  have hwidth : (rows.getLast?.map (·.logits.length)).getD 0 = if rows = [] then 0 else width := by
    cases hlast : rows.getLast? with
    | none => rw [if_pos (List.getLast?_eq_none_iff.mp hlast)]; rfl
    | some last =>
      have hmem := List.mem_of_getLast? hlast
      rw [if_neg (List.ne_nil_of_mem hmem)]
      exact hcomplete.width last hmem
  have hlength := hcomplete.length_artifact hnodup
  have hlines := mapM_read (hcomplete.readable hnodup hrange callId)
  have hcaptured := hartifact.logitCount
  rw [← hcomplete.vocabSize hnodup, hwidth, hlength] at hcaptured
  refine ⟨start, _, _, hbind, hrun, finish_eq_ok.mpr ⟨hconfig.2.1.trans hstart.1, rfl, _,
    hbound.artifactRows_foldl_push hread, rfl, ?_⟩, ?_⟩
  · rw [hcall, hbindings, hvocabSize]
    exact validateArtifact_eq_ok_iff.mpr ⟨_, _, hlines, hartifact⟩
  · rw [hcall, hbindings, hvocabSize]
    refine readAndValidateCapture_eq_ok_iff.mpr
      ⟨_, _, _, hlines, hartifact, numbered_bindings hnodup, ?_, ?_⟩
    · rw [hcaptured.1, hcaptured.2]
      split
      · exact Nat.zero_le _
      · exact hrange.size
    · rw [← hcomplete.vocabSize hnodup, hwidth, hlength, ← Bound.hostRow_artifact requestIds rows,
        List.flatMap_map]
      rfl

/-! ### What the consumer accepts -/

/-- The completion steps of some outputs, request by request. -/
def outputSteps (outputs : List RequestOutput) : List (ℕ × ℕ) :=
  (outputs.map (·.tokenIds)).zipIdx.flatMap fun (tokens, inputPosition) =>
    (List.range tokens.length).map (inputPosition, ·)

/-- Rows that follow one another and bring all tokens of the outputs are their completion steps. -/
theorem Chain.outputSteps {bindings : List RequestBinding} {rows : List ArtifactRow}
    {outputs : List RequestOutput} (h : Chain (Fits bindings) rows)
    (htokens : tokensByPosition bindings.length rows = outputs.map (·.tokenIds)) :
    rows.map (fun row => (row.inputPosition, row.completionStep)) = outputSteps outputs := by
  have hrange : (List.range bindings.length).zipIdx =
      (List.range bindings.length).map fun i => (i, i) :=
    List.ext_getElem (by simp) fun i hi hi' => by simp
  rw [h.positions, GoldenCapture.outputSteps, ← htokens, tokensByPosition, List.zipIdx_map, hrange,
    List.map_map, List.flatMap_map]
  refine List.flatMap_congr fun i _ => ?_
  simp [rowsAt, List.countP_eq_length_filter]

/-- What the consumer has accepted. -/
theorem of_readAndValidateCapture {lines : List Json} {callId : String}
    {outputs : List RequestOutput} {captured : CapturedGeneration}
    (h : readAndValidateCapture lines callId outputs = .ok captured) :
    ∃ (header : ArtifactHeader) (rows : List ArtifactRow) (trailer : ArtifactTrailer) (width : ℕ),
      lines.mapM ArtifactLine.read =
        .ok (.header header :: (rows.map ArtifactLine.row ++ [.trailer trailer])) ∧
      rows.map (fun row => (row.inputPosition, row.completionStep)) = outputSteps outputs ∧
      (∀ row ∈ rows, (outputs[row.inputPosition]?.map (·.requestId)) = some row.requestId ∧
        Answers outputs row ∧ row.logits.length = width ∧ row.logits ≠ [] ∧ Finite row.logits) ∧
      captured = { logits := rows.flatMap (·.logits), tensorShape := (rows.length, width)
                   tokensByInput := outputs.map (·.tokenIds) } := by
  obtain ⟨decoded, bindings, rows, hread, hartifact, -, -, rfl⟩ :=
    readAndValidateCapture_eq_ok_iff.mp h
  refine ⟨_, rows, _, _, hartifact.decoded ▸ hread, hartifact.chain.outputSteps hartifact.tokens,
    fun row hrow => ?_, rfl⟩
  obtain ⟨before, after, hsplit⟩ := List.append_of_mem hrow
  have hfits := hartifact.chain.fits_of_split hsplit
  refine ⟨?_, hartifact.answers hsplit hfits, hartifact.width row hrow, fun hempty =>
    hfits.rowShape_ne ?_, hfits.finite⟩
  · obtain ⟨binding, hbinding, hid⟩ := hfits.binding
    have hi := (List.getElem?_eq_some_iff.mp hbinding)
    have hlt : row.inputPosition < outputs.length := hartifact.answered.length_eq ▸ hi.1
    have hsame := ((List.forall₂_iff_get.mp hartifact.answered).2 _ hi.1 hlt).1
    rw [List.getElem?_eq_getElem hlt, hid, ← hi.2]
    exact congrArg some hsame.symm
  · rw [hfits.rowShape, hempty]
    rfl

/-- **The round trip of a diagnostic capture.** Whatever the interleaving of the requests in the steps,
what is recorded completely is published, and the consumer accepts it and returns the tokens of each
request and all rows in request-major order. Conversely what the consumer accepts has exactly one row
for each completion step of the outputs, request by request; the rows are finite and of one width, and
their values are what it returns. -/
theorem capture_round_trip :
    (∀ (callId : String) (requestIds : List ℕ) (width : ℕ) (steps : List EngineStepCapture)
      (outputs : List RequestOutput), requestIds.Nodup →
      (∀ step ∈ steps, step.WellFormed width) →
      Bound.Complete requestIds width (steps.flatMap (·.hostRows)) →
      Bound.InRange requestIds width (steps.flatMap (·.hostRows)) →
      Bound.Outputs requestIds (steps.flatMap (·.hostRows)) outputs →
      ∃ start session lines, (prepare callId).bindRequests requestIds = .ok start ∧
        Run CaptureStep start (steps.map fun step => ⟨.engineStep .none step, .ok ()⟩) session ∧
        session.finish false outputs = .ok lines ∧
        readAndValidateCapture lines callId outputs = .ok
          { logits := (requestIds.flatMap (rowsOf (steps.flatMap (·.hostRows)))).flatMap (·.logits)
            tensorShape := ((steps.flatMap (·.hostRows)).length,
              if steps.flatMap (·.hostRows) = [] then 0 else width)
            tokensByInput := outputs.map (·.tokenIds) }) ∧
    ∀ (lines : List Json) (callId : String) (outputs : List RequestOutput)
      (captured : CapturedGeneration),
      readAndValidateCapture lines callId outputs = .ok captured →
      ∃ (header : ArtifactHeader) (rows : List ArtifactRow) (trailer : ArtifactTrailer) (width : ℕ),
        lines.mapM ArtifactLine.read =
          .ok (.header header :: (rows.map ArtifactLine.row ++ [.trailer trailer])) ∧
        rows.map (fun row => (row.inputPosition, row.completionStep)) = outputSteps outputs ∧
        (∀ row ∈ rows, (outputs[row.inputPosition]?.map (·.requestId)) = some row.requestId ∧
          Answers outputs row ∧ row.logits.length = width ∧ row.logits ≠ [] ∧ Finite row.logits) ∧
        captured = { logits := rows.flatMap (·.logits), tensorShape := (rows.length, width)
                     tokensByInput := outputs.map (·.tokenIds) } :=
  ⟨fun callId _ _ _ _ hnodup hsteps hcomplete hrange houtputs =>
    readAndValidateCapture_finish callId hnodup hsteps hcomplete hrange houtputs,
    fun _ _ _ _ h => of_readAndValidateCapture h⟩

/-- Two requests in three steps, the second of which samples no token. -/
theorem capture_round_trip_twoRequests :
    ∃ (start session : CaptureSession) (log : List CaptureEvent) (lines : List Json),
      (prepare "call").bindRequests [7, 9] = .ok start ∧ Run CaptureStep start log session ∧
      log.length = 3 ∧
      session.finish false [⟨7, [3], "", true⟩, ⟨9, [4, 5], "", true⟩] = .ok lines ∧
      readAndValidateCapture lines "call" [⟨7, [3], "", true⟩, ⟨9, [4, 5], "", true⟩] =
        .ok ⟨[2, 1, 3], (3, 1), [[3], [4, 5]]⟩ := by
  let steps : List EngineStepCapture :=
    [⟨[⟨9, 4, 0⟩, ⟨7, 3, 0⟩], "F32", ⟨[2, 1], [1, 2], rfl⟩⟩, ⟨[], "F32", ⟨[0, 0], [], rfl⟩⟩,
      ⟨[⟨9, 5, 1⟩], "F32", ⟨[1, 1], [3], rfl⟩⟩]
  have hrows : steps.flatMap (·.hostRows) =
      [⟨9, 4, 0, [1]⟩, ⟨7, 3, 0, [2]⟩, ⟨9, 5, 1, [3]⟩] := rfl
  have hsteps : ∀ step ∈ steps, step.WellFormed 1 := by
    simp only [steps, List.mem_cons, List.not_mem_nil, or_false]
    rintro step (rfl | rfl | rfl) <;> exact ⟨rfl, rfl⟩
  have hcomplete : Bound.Complete [7, 9] 1 (steps.flatMap (·.hostRows)) := by
    rw [hrows]
    refine ⟨by simp, fun id => ?_, one_ne_zero, by simp, ?_⟩
    · by_cases h7 : 7 = id
      · subst h7
        rfl
      · by_cases h9 : 9 = id
        · subst h9
          rfl
        · simp [rowsOf, h7, h9]
    · simp only [List.mem_cons, List.not_mem_nil, or_false]
      rintro row (rfl | rfl | rfl) value hvalue
      all_goals
        obtain rfl := List.mem_singleton.mp hvalue
        decide +kernel
  obtain ⟨start, session, lines, hbind, hrun, hfinish, hread⟩ :=
    capture_round_trip.1 "call" [7, 9] 1 steps [⟨7, [3], "", true⟩, ⟨9, [4, 5], "", true⟩]
      (by decide) hsteps hcomplete
      ⟨by simp [USIZE_MAX], by simp [USIZE_MAX], by simp [USIZE_MAX], by rw [hrows]; simp [USIZE_MAX]⟩
      ⟨rfl, by simp, rfl⟩
  exact ⟨start, session, _, lines, hbind, hrun, rfl, hfinish, hread⟩

end VllmOxide.GoldenCapture
