import VllmOxide.GoldenCapture.CaptureOrder

/-!
# The two checks of an artifact

The producer checks an artifact before it publishes it, and the consumer checks it again with counters
of its own. Both accept a header, rows that follow one another and a trailer, with the tokens of the
outputs; so they accept the same artifacts, as long as the logits can be counted in a machine word.

## Main definitions

* `Artifact`: what both checks look at.
* `Numbered`: bindings with consecutive positions and distinct requests.

## Main results

* `validateArtifact_eq_ok_iff`: what the producer's check accepts.
* `readAndValidateCapture_eq_ok_iff`: what the consumer's check accepts, and what it returns.
* `validators_agree`: the two checks accept the same artifacts.
-/

namespace VllmOxide.GoldenCapture

open CaptureSession Json

/-! ### Reading the lines -/

theorem bind_of_ok {ε α β : Type} {x : Except ε β} {b : β} {next : β → Except ε α} {a : α}
    (hx : x = .ok b) (h : next b = .ok a) : (x >>= next) = .ok a := by
  rw [hx]
  exact h

/-- A loop over lines that succeeds has read all of them. -/
theorem exists_of_foldlM_read {σ : Type} {f : σ → ArtifactLine → Except String σ}
    {lines : List Json} : ∀ {s s' : σ}, lines.foldlM
      (fun s line => do f s (← ArtifactLine.read line)) s = .ok s' →
      ∃ decoded, lines.mapM ArtifactLine.read = .ok decoded ∧ decoded.foldlM f s = .ok s' := by
  induction lines with
  | nil => exact fun h => ⟨[], rfl, h⟩
  | cons line rest ih =>
    intro s s' h
    rw [List.foldlM_cons] at h
    obtain ⟨s₁, hfirst, hrest⟩ := exists_of_bind_ok h
    obtain ⟨first, hread, hstep⟩ := exists_of_bind_ok hfirst
    obtain ⟨decoded, hdecoded, hfold⟩ := ih hrest
    refine ⟨first :: decoded, ?_, ?_⟩
    · rw [List.mapM_cons]
      exact bind_of_ok hread (bind_of_ok hdecoded rfl)
    · rw [List.foldlM_cons]
      exact bind_of_ok hstep hfold

/-- Written lines are read. -/
theorem mapM_read {lines : List ArtifactLine} (h : ∀ line ∈ lines, line.Readable) :
    (lines.map ArtifactLine.toJson).mapM ArtifactLine.read = .ok lines := by
  have hread := mapM_eq_ok (f := fun line => ArtifactLine.read line.toJson) (F := id)
    fun line hline => ArtifactLine.read_toJson (h line hline)
  rw [List.map_id] at hread
  rw [List.mapM_map]
  exact hread

/-- A loop over lines that are read. -/
theorem foldlM_of_mapM {σ : Type} {f : σ → ArtifactLine → Except String σ} {lines : List Json} :
    ∀ {decoded : List ArtifactLine} {s : σ}, lines.mapM ArtifactLine.read = .ok decoded →
      lines.foldlM (fun s line => do f s (← ArtifactLine.read line)) s = decoded.foldlM f s := by
  induction lines with
  | nil =>
    intro decoded s h
    obtain rfl := Except.ok.inj h
    rfl
  | cons line rest ih =>
    intro decoded s h
    rw [List.mapM_cons] at h
    obtain ⟨first, hfirst, h⟩ := exists_of_bind_ok h
    obtain ⟨others, hothers, h⟩ := exists_of_bind_ok h
    obtain rfl := Except.ok.inj h
    rw [List.foldlM_cons, List.foldlM_cons, hfirst]
    exact congrArg (f s first >>= ·) (funext fun _ => ih hothers)

theorem exists_of_mapM_cons {lines : List Json} {first : ArtifactLine} {decoded : List ArtifactLine}
    (h : lines.mapM ArtifactLine.read = .ok (first :: decoded)) :
    ∃ line rest, lines = line :: rest ∧ ArtifactLine.read line = .ok first ∧
      rest.mapM ArtifactLine.read = .ok decoded := by
  cases lines with
  | nil => cases h
  | cons line rest =>
    rw [List.mapM_cons] at h
    obtain ⟨first', hfirst, h⟩ := exists_of_bind_ok h
    obtain ⟨others, hothers, h⟩ := exists_of_bind_ok h
    obtain ⟨rfl, rfl⟩ := List.cons_eq_cons.mp (Except.ok.inj h)
    exact ⟨line, rest, rfl, hfirst, hothers⟩

theorem ArtifactScan.start_eq (requests : ℕ) : ArtifactScan.start requests = .after requests [] := by
  rw [ArtifactScan.after, positionCounts_nil, tokensByPosition_nil]
  rfl

theorem CaptureScan.start_eq (requests : ℕ) : CaptureScan.start requests = .after requests [] := by
  rw [CaptureScan.after, positionCounts_nil, tokensByPosition_nil]
  rfl

/-! ### What both checks look at -/

/-- What both checks look at: the header, rows that follow one another, the trailer, and outputs with the
tokens of the rows. -/
structure Artifact (callId : String) (bindings : List RequestBinding) (rows : List ArtifactRow)
    (outputs : List RequestOutput) (decoded : List ArtifactLine) : Prop where
  decoded : decoded = artifactLines callId bindings rows (rows.getLast?.map (·.rowShape))
  chain : Chain (Fits bindings) rows
  answered : List.Forall₂ (fun binding output =>
    binding.requestId = output.requestId ∧ output.finished = true) bindings outputs
  tokens : tokensByPosition bindings.length rows = outputs.map (·.tokenIds)

section Checks

variable {lines : List Json} {callId : String} {bindings : List RequestBinding}
  {rows : List ArtifactRow} {outputs : List RequestOutput} {decoded : List ArtifactLine}

/-- The lines of an artifact with the header and the trailer that are expected. -/
theorem lines_eq {header : ArtifactHeader} {trailer : ArtifactTrailer}
    (hheader : header.format = FORMAT_NAME ∧ header.schemaVersion = SCHEMA_VERSION ∧
      header.callId = callId ∧ header.requests = bindings)
    (htrailer : trailer.complete = true ∧ trailer.rowCount = rows.length ∧
      trailer.dtype = LOGITS_DTYPE ∧
      trailer.tensorShape = (rows.length, (rows.getLast?.map (·.rowShape)).getD 0)) :
    .header header :: (rows.map .row ++ [.trailer trailer]) =
      artifactLines callId bindings rows (rows.getLast?.map (·.rowShape)) := by
  obtain ⟨format, schemaVersion, call, requests⟩ := header
  obtain ⟨complete, rowCount, dtype, tensorShape⟩ := trailer
  obtain ⟨rfl, rfl, rfl, rfl⟩ := hheader
  obtain ⟨rfl, rfl, rfl, rfl⟩ := htrailer
  rfl

/-- The tokens that are compared at the end of a check. -/
theorem tokens_of_forM {message : RequestOutput × ℕ → String} {tokens : List (List Token)}
    (hlength : tokens.length = outputs.length)
    (h : outputs.zipIdx.forM (fun output =>
      bailIf (tokens.getD output.2 [] ≠ output.1.tokenIds) (message output)) = .ok ()) :
    tokens = outputs.map (·.tokenIds) := by
  refine List.ext_getElem (by simpa using hlength) fun i hi hi' => ?_
  have hlt : i < outputs.length := by simpa using hi'
  have hcheck := not_not.mp (not_of_bailIf_ok (forM_eq_ok_iff.mp h (outputs[i], i)
    (List.mk_mem_zipIdx_iff_getElem?.mpr (List.getElem?_eq_getElem hlt))))
  rw [List.getElem_map, ← hcheck, List.getD_eq_getElem?_getD, List.getElem?_eq_getElem hi]
  rfl

theorem forM_of_tokens {message : RequestOutput × ℕ → String} {tokens : List (List Token)}
    (h : tokens = outputs.map (·.tokenIds)) :
    outputs.zipIdx.forM (fun output =>
      bailIf (tokens.getD output.2 [] ≠ output.1.tokenIds) (message output)) = .ok () := by
  refine forM_eq_ok_iff.mpr fun pair hpair => bailIf_of_not ?_
  obtain ⟨output, i⟩ := pair
  have houtput : outputs[i]? = some output := List.mk_mem_zipIdx_iff_getElem?.mp hpair
  simp [h, List.getD_eq_getElem?_getD, houtput]

/-- A row that is accepted brings the token of its step. -/
theorem Artifact.answers (h : Artifact callId bindings rows outputs decoded)
    {before after : List ArtifactRow} {row : ArtifactRow} (hsplit : rows = before ++ row :: after)
    (hfits : Fits bindings before row) : Answers outputs row := by
  obtain ⟨binding, hbinding, -⟩ := hfits.binding
  have hlt : row.inputPosition < bindings.length := (List.getElem?_eq_some_iff.mp hbinding).1
  have htokens := congrArg (·[row.inputPosition]?) h.tokens
  simp only [tokensByPosition, List.getElem?_map, List.getElem?_range hlt, Option.map_some]
    at htokens
  rw [Answers, ← htokens, Option.bind_some, hsplit, List.filter_append,
    List.filter_cons_of_pos (by simp), List.map_append, List.map_cons, hfits.completionStep,
    List.countP_eq_length_filter, List.getElem?_append_right (by simp), List.length_map,
    Nat.sub_self]
  rfl

/-! ### The check of the producer -/

/-- **What the producer's check accepts.** -/
theorem validateArtifact_eq_ok_iff :
    validateArtifact lines callId bindings outputs = .ok () ↔
      ∃ decoded rows, lines.mapM ArtifactLine.read = .ok decoded ∧
        Artifact callId bindings rows outputs decoded := by
  constructor
  · intro h
    obtain ⟨hlength, h⟩ := bailIf_bind_eq_ok_iff.mp h
    obtain ⟨hanswered, h⟩ := next_of_bind h
    replace hlength := not_not.mp hlength
    cases lines with
    | nil => cases h
    | cons headerLine body =>
      obtain ⟨first, hfirst, h⟩ := exists_of_bind_ok h
      cases first with
      | row row => cases h
      | trailer trailer => cases h
      | header header =>
        dsimp only at h
        obtain ⟨hheader, h⟩ := bailIf_bind_eq_ok_iff.mp h
        obtain ⟨scan, hscan, h⟩ := exists_of_bind_ok h
        obtain ⟨decoded, hdecoded, hfold⟩ := exists_of_foldlM_read hscan
        rw [ArtifactScan.start_eq] at hfold
        obtain ⟨rows, hchain, hend⟩ := (ArtifactScan.scanner bindings).foldlM_eq_ok_iff.mp hfold
        rcases hend with ⟨-, rfl⟩ | ⟨trailer, rfl, rfl⟩
        · cases h
        · obtain ⟨htrailer, htokens⟩ := bailIf_bind_eq_ok_iff.mp h
          refine ⟨.header header :: (rows.map .row ++ [.trailer trailer]), rows, ?_, ?_, hchain, ?_,
            tokens_of_forM ?_ htokens⟩
          · rw [List.mapM_cons]
            exact bind_of_ok hfirst (bind_of_ok hdecoded rfl)
          · simp only [not_or, not_not, Bool.not_eq_false] at hheader htrailer
            exact lines_eq hheader htrailer
          · refine List.forall₂_iff_zip.mpr ⟨hlength.symm, fun hpair => ?_⟩
            have hcheck := not_of_bailIf_ok (forM_eq_ok_iff.mp hanswered _ hpair)
            simpa using hcheck
          · show (tokensByPosition bindings.length rows).length = outputs.length
            simp [tokensByPosition, hlength]
  · rintro ⟨decoded, rows, hread, rfl, hchain, hanswered, htokens⟩
    obtain ⟨headerLine, body, rfl, hheader, hbody⟩ := exists_of_mapM_cons hread
    have hscan := (ArtifactScan.scanner bindings).foldlM_eq_ok_iff.mpr
      ⟨rows, hchain, .inr ⟨⟨true, rows.length, LOGITS_DTYPE,
        (rows.length, (rows.getLast?.map (·.rowShape)).getD 0)⟩, rfl, rfl⟩⟩
    refine bind_of_ok (bailIf_of_not (not_not.mpr hanswered.length_eq.symm)) (bind_of_ok
      (forM_eq_ok_iff.mpr fun pair hpair => bailIf_of_not ?_) (bind_of_ok hheader ?_))
    · obtain ⟨hid, hfinished⟩ := (List.forall₂_iff_zip.mp hanswered).2 hpair
      simp [hid, hfinished]
    · dsimp only
      rw [ArtifactScan.start_eq]
      refine bind_of_ok (bailIf_of_not (by simp)) (bind_of_ok ((foldlM_of_mapM hbody).trans hscan)
        (bind_of_ok (bailIf_of_not ?_) (forM_of_tokens htokens)))
      simp [ArtifactScan.scanner, ArtifactScan.after]

/-! ### The check of the consumer -/

/-- The number of logits of some lines. -/
def logitCount (decoded : List ArtifactLine) : ℕ :=
  (decoded.map fun line => match line with
    | .row row => row.logits.length
    | _ => 0).sum

/-- The rows of an artifact have one width. -/
theorem Artifact.width (h : Artifact callId bindings rows outputs decoded) :
    ∀ row ∈ rows, row.logits.length = (rows.getLast?.map (·.rowShape)).getD 0 := by
  intro row hrow
  cases hlast : rows.getLast? with
  | none =>
    obtain rfl := List.getLast?_eq_none_iff.mp hlast
    cases hrow
  | some last =>
    obtain ⟨before, hfits⟩ := h.chain.exists_of_mem hrow
    exact hfits.rowShape.symm.trans (h.chain.last last hlast row hrow).2

theorem Artifact.logitCount (h : Artifact callId bindings rows outputs decoded) :
    logitCount decoded = (rows.flatMap (·.logits)).length ∧
      (rows.flatMap (·.logits)).length = rows.length * (rows.getLast?.map (·.rowShape)).getD 0 := by
  constructor
  · rw [h.decoded, artifactLines, GoldenCapture.logitCount, List.length_flatMap]
    simp [Function.comp_def]
  · rw [List.length_flatMap, List.map_congr_left h.width, List.map_const', List.sum_replicate]
    rfl

theorem checkBindings_ok {pairs : List (RequestBinding × RequestOutput)} :
    ∀ {inputPosition : ℕ} {seen : List ℕ},
      (pairs.map fun pair => pair.1.inputPosition) = List.range' inputPosition pairs.length →
      (pairs.map fun pair => pair.1.requestId).Nodup →
      (∀ pair ∈ pairs, pair.1.requestId ∉ seen ∧ pair.1.requestId = pair.2.requestId ∧
        pair.2.finished = true) →
      checkBindings inputPosition seen pairs = .ok () := by
  induction pairs with
  | nil => exact fun _ _ _ => rfl
  | cons pair rest ih =>
    intro inputPosition seen hpositions hnodup hpairs
    rw [List.map_cons, List.length_cons, List.range'_succ, List.cons_eq_cons] at hpositions
    rw [List.map_cons, List.nodup_cons] at hnodup
    obtain ⟨hseen, hid, hfinished⟩ := hpairs pair List.mem_cons_self
    obtain ⟨binding, output⟩ := pair
    refine bind_of_ok (bailIf_of_not ?_) (ih hpositions.2 hnodup.2 fun other hother => ?_)
    · simp only [not_or, not_not]
      exact ⟨hpositions.1, hid, by simpa using hfinished, hseen⟩
    · obtain ⟨hother', hrest⟩ := hpairs other (List.mem_cons_of_mem _ hother)
      refine ⟨fun hmem => ?_, hrest⟩
      rcases List.mem_cons.mp hmem with heq | hmem
      · exact hnodup.1 (heq ▸ List.mem_map_of_mem hother)
      · exact hother' hmem

/-- The bindings of a header that the consumer accepts. -/
structure Numbered (bindings : List RequestBinding) : Prop where
  positions : bindings.map (·.inputPosition) = List.range bindings.length
  nodup : (bindings.map (·.requestId)).Nodup

/-- The bindings that the loop of `validate_bindings` accepts. -/
theorem numbered_of_checkBindings {pairs : List (RequestBinding × RequestOutput)} :
    ∀ {inputPosition : ℕ} {seen : List ℕ}, checkBindings inputPosition seen pairs = .ok () →
      (pairs.map fun pair => pair.1.inputPosition) = List.range' inputPosition pairs.length ∧
      (pairs.map fun pair => pair.1.requestId).Nodup ∧
      ∀ pair ∈ pairs, pair.1.requestId ∉ seen ∧ pair.1.requestId = pair.2.requestId ∧
        pair.2.finished = true := by
  induction pairs with
  | nil => exact fun _ => ⟨rfl, .nil, nofun⟩
  | cons pair rest ih =>
    intro inputPosition seen h
    obtain ⟨binding, output⟩ := pair
    obtain ⟨hcheck, hrest⟩ := bailIf_bind_eq_ok_iff.mp h
    simp only [not_or, not_not, Bool.not_eq_false] at hcheck
    obtain ⟨hpositions, hnodup, hall⟩ := ih hrest
    refine ⟨?_, List.nodup_cons.mpr ⟨fun hmem => ?_, hnodup⟩, fun other hother => ?_⟩
    · rw [List.map_cons, hpositions, hcheck.1, List.length_cons, List.range'_succ]
    · obtain ⟨other, hother, hid⟩ := List.mem_map.mp hmem
      exact (hall other hother).1 (hid ▸ List.mem_cons_self)
    · rcases List.mem_cons.mp hother with rfl | hother
      · exact ⟨hcheck.2.2.2, hcheck.2.1, hcheck.2.2.1⟩
      · exact (hall other hother).imp_left fun hnot hseen => hnot (List.mem_cons_of_mem _ hseen)

theorem of_validateBindings (h : validateBindings bindings outputs = .ok ()) :
    bindings.length = outputs.length ∧ Numbered bindings ∧ List.Forall₂ (fun binding output =>
      binding.requestId = output.requestId ∧ output.finished = true) bindings outputs := by
  obtain ⟨hlength, hchecked⟩ := next_of_bind h
  replace hlength := not_not.mp (not_of_bailIf_ok hlength)
  obtain ⟨hpositions, hnodup, hall⟩ := numbered_of_checkBindings hchecked
  have hzip : (bindings.zip outputs).map Prod.fst = bindings := List.map_fst_zip hlength.le
  refine ⟨hlength, ⟨?_, ?_⟩, List.forall₂_iff_zip.mpr ⟨hlength, fun hpair => (hall _ hpair).2⟩⟩
  · have hmap := congrArg (List.map (·.inputPosition)) hzip
    rw [List.map_map] at hmap
    rw [← hmap, List.range_eq_range']
    refine hpositions.trans ?_
    rw [List.length_zip, ← hlength, Nat.min_self]
  · have hmap := congrArg (List.map (·.requestId)) hzip
    rw [List.map_map] at hmap
    exact hmap ▸ hnodup

theorem validateBindings_ok (hpositions : bindings.map (·.inputPosition) = List.range bindings.length)
    (hnodup : (bindings.map (·.requestId)).Nodup)
    (hanswered : List.Forall₂ (fun binding output =>
      binding.requestId = output.requestId ∧ output.finished = true) bindings outputs) :
    validateBindings bindings outputs = .ok () := by
  have hlength := hanswered.length_eq
  have hzip : (bindings.zip outputs).map Prod.fst = bindings := List.map_fst_zip hlength.le
  refine bind_of_ok (bailIf_of_not (not_not.mpr hlength)) (checkBindings_ok ?_ ?_ fun pair hpair =>
    ⟨List.not_mem_nil, (List.forall₂_iff_zip.mp hanswered).2 hpair⟩)
  · have hmap := congrArg (List.map (·.inputPosition)) hzip
    rw [List.map_map, hpositions, List.range_eq_range'] at hmap
    rw [List.length_zip, ← hlength, Nat.min_self]
    exact hmap
  · have hmap := congrArg (List.map (·.requestId)) hzip
    rw [List.map_map] at hmap
    exact hmap ▸ hnodup

/-- **What the consumer's check accepts.** -/
theorem readAndValidateCapture_eq_ok_iff {captured : CapturedGeneration} :
    readAndValidateCapture lines callId outputs = .ok captured ↔
      ∃ decoded bindings rows, lines.mapM ArtifactLine.read = .ok decoded ∧
        Artifact callId bindings rows outputs decoded ∧ Numbered bindings ∧
        logitCount decoded ≤ USIZE_MAX ∧
        captured =
          { logits := rows.flatMap (·.logits)
            tensorShape := (rows.length, (rows.getLast?.map (·.rowShape)).getD 0)
            tokensByInput := outputs.map (·.tokenIds) } := by
  constructor
  · intro h
    cases lines with
    | nil => cases h
    | cons headerLine body =>
      obtain ⟨first, hfirst, h⟩ := exists_of_bind_ok h
      cases first with
      | row row => cases h
      | trailer trailer => cases h
      | header header =>
        dsimp only at h
        obtain ⟨hheader, h⟩ := bailIf_bind_eq_ok_iff.mp h
        change (validateBindings header.requests outputs >>= _) = _ at h
        obtain ⟨hvalid, h⟩ := next_of_bind h
        obtain ⟨hlength, hnumbered, hanswered⟩ := of_validateBindings hvalid
        obtain ⟨scan, hscan, h⟩ := exists_of_bind_ok h
        obtain ⟨decoded, hdecoded, hfold⟩ := exists_of_foldlM_read hscan
        rw [CaptureScan.start_eq] at hfold
        obtain ⟨rows, hchain, hend⟩ :=
          (CaptureScan.scanner header.requests outputs).foldlM_eq_ok_iff.mp hfold
        rcases hend with ⟨-, rfl⟩ | ⟨trailer, rfl, rfl⟩
        · cases h
        · obtain ⟨htrailer, h⟩ := bailIf_bind_eq_ok_iff.mp h
          obtain ⟨htokens, h⟩ := next_of_bind h
          have hsame : tokensByPosition header.requests.length rows = outputs.map (·.tokenIds) :=
            tokens_of_forM (by
              show (tokensByPosition header.requests.length rows).length = outputs.length
              simp [tokensByPosition, hlength]) htokens
          simp only [not_or, not_not, Bool.not_eq_false] at hheader htrailer
          have hartifact : Artifact callId header.requests rows outputs
              (.header header :: (rows.map .row ++ [.trailer trailer])) := by
            obtain ⟨hcomplete, hcount, hdtype, hshape, -⟩ := htrailer
            exact ⟨lines_eq ⟨hheader.1, hheader.2.1, hheader.2.2, rfl⟩
              ⟨hcomplete, hcount, hdtype, hshape⟩, hchain.imp fun _ _ => And.left, hanswered, hsame⟩
          refine ⟨_, header.requests, rows, ?_, hartifact, hnumbered, ?_,
            (Except.ok.inj h).symm.trans (congrArg (CapturedGeneration.mk _ _) hsame)⟩
          · rw [List.mapM_cons]
            exact bind_of_ok hfirst (bind_of_ok hdecoded rfl)
          · rw [hartifact.logitCount.1]
            exact htrailer.2.2.2.2.trans_le (Nat.min_le_right _ _)
  · rintro ⟨decoded, bindings, rows, hread, hartifact, hnumbered, hsize, rfl⟩
    obtain ⟨hcount, hproduct⟩ := hartifact.logitCount
    rw [hcount] at hsize
    obtain ⟨headerLine, body, rfl, hheader, hbody⟩ := exists_of_mapM_cons (hartifact.decoded ▸ hread)
    have hgood : Chain (fun before row => Fits bindings before row ∧ Answers outputs row) rows :=
      chain_of_splits fun before row after hsplit =>
        have hfits := hartifact.chain.fits_of_split hsplit
        ⟨hfits, hartifact.answers hsplit hfits⟩
    have hscan := (CaptureScan.scanner bindings outputs).foldlM_eq_ok_iff.mpr
      ⟨rows, hgood, .inr ⟨⟨true, rows.length, LOGITS_DTYPE,
        (rows.length, (rows.getLast?.map (·.rowShape)).getD 0)⟩, rfl, rfl⟩⟩
    have hvalid := validateBindings_ok hnumbered.positions hnumbered.nodup hartifact.answered
    refine bind_of_ok hheader ?_
    dsimp only
    refine bind_of_ok (bailIf_of_not (by simp)) (bind_of_ok (b := bindings) rfl
      (bind_of_ok hvalid ?_))
    rw [CaptureScan.start_eq]
    refine bind_of_ok ((foldlM_of_mapM hbody).trans hscan) (bind_of_ok (bailIf_of_not ?_)
      (bind_of_ok (forM_of_tokens hartifact.tokens) ?_))
    · rw [hproduct] at hsize
      have hlogits : (rows.flatMap (·.logits)).length =
          min (rows.length * (rows.getLast?.map (·.rowShape)).getD 0) USIZE_MAX :=
        hproduct.trans (Nat.min_eq_left hsize).symm
      rintro (h | h | h | h | h)
      · cases h
      · exact h rfl
      · exact h rfl
      · exact h rfl
      · exact h hlogits
    · rw [← hartifact.tokens]
      rfl

/-! ### The two checks -/

/-- The bindings of some requests in input order. -/
theorem eq_bindings (hnumbered : Numbered bindings)
    (hanswered : List.Forall₂ (fun binding output =>
      binding.requestId = output.requestId ∧ output.finished = true) bindings outputs) :
    bindings = Bound.bindings (outputs.map (·.requestId)) := by
  have hlength := hanswered.length_eq
  refine List.ext_getElem (by simp [Bound.length_bindings, hlength]) fun i hi hi' => ?_
  have hlt : i < outputs.length := hlength ▸ hi
  have hid := ((List.forall₂_iff_get.mp hanswered).2 i hi hlt).1
  have hposition : bindings[i].inputPosition = i := by
    have hget := congrArg (·[i]?) hnumbered.positions
    simpa [List.getElem?_range hi, hi] using hget
  have hbinding := Bound.getElem?_bindings (outputs.map (·.requestId)) i
  rw [List.getElem?_eq_getElem hi', List.getElem?_map, List.getElem?_eq_getElem hlt] at hbinding
  rw [Option.some.inj hbinding]
  exact congrArg₂ RequestBinding.mk hposition hid

theorem numbered_bindings {requestIds : List ℕ} (h : requestIds.Nodup) :
    Numbered (Bound.bindings requestIds) where
  positions := by
    rw [Bound.length_bindings, Bound.bindings, List.map_map, List.range_eq_range']
    exact List.zipIdx_map_snd 0 requestIds
  nodup := by
    rw [Bound.bindings, List.map_map]
    exact (List.zipIdx_map_fst 0 requestIds).symm ▸ h

/-- **The two checks accept the same artifacts.** For distinct requests, lines of which the logits can
be counted pass the producer's check if and only if the outputs are those of the requests and the
consumer accepts the lines. -/
theorem validators_agree {requestIds : List ℕ} (hnodup : requestIds.Nodup)
    (hsize : ∀ decoded, lines.mapM ArtifactLine.read = .ok decoded → logitCount decoded ≤ USIZE_MAX) :
    validateArtifact lines callId (Bound.bindings requestIds) outputs = .ok () ↔
      outputs.map (·.requestId) = requestIds ∧
        ∃ captured, readAndValidateCapture lines callId outputs = .ok captured := by
  have hnumbered := numbered_bindings hnodup
  have hids : (Bound.bindings requestIds).map (·.requestId) = requestIds := by
    rw [Bound.bindings, List.map_map]
    exact List.zipIdx_map_fst 0 requestIds
  rw [validateArtifact_eq_ok_iff]
  constructor
  · rintro ⟨decoded, rows, hread, hartifact⟩
    have hsame := congrArg (List.map (·.requestId)) (eq_bindings hnumbered hartifact.answered)
    rw [hids, Bound.bindings, List.map_map] at hsame
    exact ⟨(hsame.trans (List.zipIdx_map_fst 0 _)).symm, _, readAndValidateCapture_eq_ok_iff.mpr
      ⟨decoded, _, rows, hread, hartifact, hnumbered, hsize decoded hread, rfl⟩⟩
  · rintro ⟨rfl, captured, hcaptured⟩
    obtain ⟨decoded, bindings, rows, hread, hartifact, hnumbered', -⟩ :=
      readAndValidateCapture_eq_ok_iff.mp hcaptured
    exact ⟨decoded, rows, hread, eq_bindings hnumbered' hartifact.answered ▸ hartifact⟩

/-- Both checks accept the artifact of one request with one token. -/
theorem validators_agree_oneRequest :
    ∃ (lines : List Json) (captured : CapturedGeneration),
      validateArtifact lines "call" (Bound.bindings [7]) [⟨7, [3], "", true⟩] = .ok () ∧
      readAndValidateCapture lines "call" [⟨7, [3], "", true⟩] = .ok captured ∧ lines.length = 3 := by
  let lines := (artifactLines "call" (Bound.bindings [7])
    [⟨0, 0, 7, 3, 0, LOGITS_DTYPE, 1, [1]⟩] (some 1)).map ArtifactLine.toJson
  have hread : (lines.mapM ArtifactLine.read).toOption.map logitCount = some 1 := by decide +kernel
  have hvalid : validateArtifact lines "call" (Bound.bindings [7]) [⟨7, [3], "", true⟩] = .ok () := by
    decide +kernel
  obtain ⟨-, captured, hcaptured⟩ := (validators_agree (by decide) fun decoded hdecoded => by
    rw [hdecoded] at hread
    rw [Option.some.inj hread]
    simp [USIZE_MAX]).mp hvalid
  exact ⟨lines, captured, hvalid, hcaptured, rfl⟩

end Checks

end VllmOxide.GoldenCapture
