import VllmOxide.GoldenCapture.CaptureRows
import VllmOxide.GoldenCapture.CapturePublish

/-!
# Request-major order

Rows that follow one another are the rows of the first request, step by step, then those of the second
one, and so on. Conversely rows in this order follow one another. The rows that a session publishes
stand in this order, if each request has been recorded completely.

## Main definitions

* `RequestMajor`: rows in request-major order.
* `CaptureSession.Bound.Complete`: rows in any interleaving of the requests, complete for each.

## Main results

* `Chain.positions`: the positions and steps of rows that follow one another.
* `RequestMajor.fits`: rows in request-major order follow one another.
* `CaptureSession.Bound.Complete.requestMajor`: the artifact of complete rows.
-/

namespace VllmOxide.GoldenCapture

/-! ### From the chain to the order -/

section Order

variable {bindings : List RequestBinding} {rows : List ArtifactRow}

/-- The number of rows at an input position. -/
def rowsAt (rows : List ArtifactRow) (inputPosition : ℕ) : ℕ :=
  rows.countP fun row => decide (row.inputPosition = inputPosition)

theorem rowsAt_append (rows : List ArtifactRow) (row : ArtifactRow) (i : ℕ) :
    rowsAt (rows ++ [row]) i = rowsAt rows i + if row.inputPosition = i then 1 else 0 := by
  rw [rowsAt, rowsAt, List.countP_append, List.countP_singleton]
  simp

/-- No row stands after the last one, and all rows have its width. -/
theorem Chain.last (h : Chain (Fits bindings) rows) :
    ∀ last ∈ rows.getLast?, ∀ row ∈ rows,
      row.inputPosition ≤ last.inputPosition ∧ row.rowShape = last.rowShape := by
  induction h with
  | nil => exact nofun
  | @snoc rows row _ hrow ih =>
    intro last hlast other hother
    rw [List.getLast?_append, List.getLast?_singleton] at hlast
    obtain rfl := Option.some.inj hlast
    rcases List.mem_append.mp hother with hother | hother
    · cases hbefore : rows.getLast? with
      | none =>
        obtain rfl := List.getLast?_eq_none_iff.mp hbefore
        cases hother
      | some before =>
        obtain ⟨hle, hshape⟩ := ih before hbefore other hother
        exact ⟨hle.trans (hrow.ordered before hbefore), hshape.trans (hrow.width before hbefore)⟩
    · obtain rfl := List.mem_singleton.mp hother
      exact ⟨le_rfl, rfl⟩

theorem rowsAt_eq_zero {i : ℕ} (h : ∀ row ∈ rows, row.inputPosition ≠ i) : rowsAt rows i = 0 :=
  List.countP_eq_zero.mpr fun row hrow => by simpa using h row hrow

/-- **The order of the rows**: request by request, and within a request step by step. -/
theorem Chain.positions (h : Chain (Fits bindings) rows) :
    rows.map (fun row => (row.inputPosition, row.completionStep)) =
      (List.range bindings.length).flatMap fun i => (List.range (rowsAt rows i)).map (i, ·) := by
  induction h with
  | nil => exact (List.flatMap_eq_nil_iff.mpr fun _ _ => rfl).symm
  | @snoc rows row h hrow ih =>
    obtain ⟨binding, hbinding, -⟩ := hrow.binding
    have hlt : row.inputPosition < bindings.length := (List.getElem?_eq_some_iff.mp hbinding).1
    set p := row.inputPosition with hp
    have hlater : ∀ i, p < i → rowsAt (rows ++ [row]) i = 0 ∧ rowsAt rows i = 0 := by
      intro i hi
      have hbefore : ∀ other ∈ rows, other.inputPosition ≠ i := fun other hother => by
        cases hlast : rows.getLast? with
        | none =>
          obtain rfl := List.getLast?_eq_none_iff.mp hlast
          cases hother
        | some last =>
          have hle := (h.last last hlast other hother).1
          have hnext := hrow.ordered last hlast
          omega
      refine ⟨?_, rowsAt_eq_zero hbefore⟩
      rw [rowsAt_append, rowsAt_eq_zero hbefore, if_neg (by omega)]
    -- the requests before, at and after the position of the row
    have hsplit : List.range bindings.length =
        List.range p ++ p :: List.range' (p + 1) (bindings.length - (p + 1)) := by
      rw [List.range_eq_range', List.range_eq_range', ← List.range'_succ,
        show bindings.length - (p + 1) + 1 = bindings.length - p by omega]
      conv_lhs => rw [show bindings.length = p + (bindings.length - p) by omega]
      rw [← List.range'_append_1, Nat.zero_add]
    have hrest : ∀ f : ℕ → List (ℕ × ℕ), (∀ i, p < i → f i = []) →
        (List.range' (p + 1) (bindings.length - (p + 1))).flatMap f = [] := fun f hf =>
      List.flatMap_eq_nil_iff.mpr fun i hi => hf i (by rw [List.mem_range'_1] at hi; omega)
    rw [List.map_append, ih, hsplit, List.flatMap_append, List.flatMap_append, List.flatMap_cons,
      List.flatMap_cons, hrest _ (fun i hi => by rw [(hlater i hi).2]; rfl),
      hrest _ (fun i hi => by rw [(hlater i hi).1]; rfl), List.append_nil, List.append_nil,
      List.append_assoc]
    congr 1
    · refine List.flatMap_congr fun i hi => ?_
      rw [rowsAt_append, if_neg (by have := List.mem_range.mp hi; omega), Nat.add_zero]
    · rw [rowsAt_append, if_pos rfl, List.range_succ, List.map_append]
      exact congrArg (fun step => (List.range (rowsAt rows p)).map (p, ·) ++ [(p, step)])
        hrow.completionStep

theorem Chain.exists_of_mem {good : List ArtifactRow → ArtifactRow → Prop} (h : Chain good rows)
    {row : ArtifactRow} (hrow : row ∈ rows) : ∃ before, good before row := by
  induction h with
  | nil => cases hrow
  | snoc _ hgood ih =>
    rcases List.mem_append.mp hrow with hrow | hrow
    · exact ih hrow
    · exact ⟨_, List.mem_singleton.mp hrow ▸ hgood⟩

/-- Every row of a chain follows the rows before it. -/
theorem Chain.fits_of_split {good : List ArtifactRow → ArtifactRow → Prop} (h : Chain good rows) :
    ∀ {before after : List ArtifactRow} {row : ArtifactRow}, rows = before ++ row :: after →
      good before row := by
  induction h with
  | nil =>
    intro before after row hsplit
    simp at hsplit
  | @snoc rows last _ hlast ih =>
    intro before after row hsplit
    rcases List.eq_nil_or_concat after with rfl | ⟨init, other, rfl⟩
    · obtain ⟨rfl, hsame⟩ := List.append_inj' hsplit rfl
      exact List.singleton_inj.mp hsame ▸ hlast
    · rw [List.concat_eq_append, ← List.cons_append, ← List.append_assoc] at hsplit
      exact ih (List.append_inj' hsplit rfl).1

end Order

/-! ### From the order to the chain -/

theorem chain_of_splits {good : List ArtifactRow → ArtifactRow → Prop} {rows : List ArtifactRow}
    (h : ∀ before row after, rows = before ++ row :: after → good before row) : Chain good rows := by
  induction rows using List.reverseRecOn with
  | nil => exact .nil
  | append_singleton rows row ih =>
    refine .snoc (ih fun before other after hsplit => h before other (after ++ [row]) ?_)
      (h rows row [] rfl)
    rw [hsplit, List.append_assoc, List.cons_append]

/-- A member of which the group is numbered has the number of the members of its group before it. -/
theorem eq_length_of_split {α : Type} {p : α → Bool} {f : α → ℕ} {l before after : List α} {x : α}
    {n : ℕ} (h : (l.filter p).map f = List.range n) (hsplit : l = before ++ x :: after)
    (hx : p x = true) : f x = (before.filter p).length := by
  rw [hsplit, List.filter_append, List.filter_cons_of_pos hx, List.map_append, List.map_cons] at h
  have hget := congrArg (·[(before.filter p).length]?) h
  rw [List.getElem?_append_right (by simp), List.length_map, Nat.sub_self] at hget
  obtain ⟨hlt, hsome⟩ := List.getElem?_eq_some_iff.mp hget.symm
  rw [List.getElem_range] at hsome
  exact hsome.symm

/-- Rows in request-major order. -/
structure RequestMajor (bindings : List RequestBinding) (rows : List ArtifactRow) (width : ℕ) :
    Prop where
  rowIndex : rows.map (·.rowIndex) = List.range rows.length
  ordered : (rows.map (·.inputPosition)).Pairwise (· ≤ ·)
  binding : ∀ row ∈ rows, ∃ binding, bindings[row.inputPosition]? = some binding ∧
    row.requestId = binding.requestId
  steps : ∀ i, ∃ n, (rows.filter fun row => decide (row.inputPosition = i)).map (·.completionStep) =
    List.range n
  width_ne : width ≠ 0
  values : ∀ row ∈ rows, row.dtype = LOGITS_DTYPE ∧ row.rowShape = width ∧
    row.logits.length = width ∧ Finite row.logits

/-- **Rows in request-major order follow one another.** -/
theorem RequestMajor.fits {bindings : List RequestBinding} {rows : List ArtifactRow} {width : ℕ}
    (h : RequestMajor bindings rows width) {before after : List ArtifactRow} {row : ArtifactRow}
    (hsplit : rows = before ++ row :: after) : Fits bindings before row := by
  have hrow : row ∈ rows := by simp [hsplit]
  have hbefore : ∀ last ∈ before.getLast?, last ∈ before := fun _ hlast => List.mem_of_getLast? hlast
  have hmem : ∀ last ∈ before, last ∈ rows := fun last hlast => by simp [hsplit, hlast]
  obtain ⟨hdtype, hshape, hlength, hfinite⟩ := h.values row hrow
  refine ⟨?_, fun last hlast => ?_, h.binding row hrow, ?_, hdtype, hshape ▸ h.width_ne,
    hshape.trans hlength.symm, hfinite, fun last hlast => ?_⟩
  · have hget := congrArg (·[before.length]?) h.rowIndex
    rw [hsplit] at hget
    simpa using hget
  · have hordered := h.ordered
    rw [hsplit, List.map_append, List.pairwise_append] at hordered
    exact hordered.2.2 _ (List.mem_map_of_mem (hbefore last hlast)) _ (by simp)
  · obtain ⟨n, hsteps⟩ := h.steps row.inputPosition
    rw [eq_length_of_split hsteps hsplit (by simp), List.countP_eq_length_filter]
  · exact (h.values last (hmem last (hbefore last hlast))).2.1.trans hshape.symm

/-! ### The rows of a session -/

/-- Where a row of an artifact comes from. -/
theorem of_mem_requestMajor {requests : List (ℕ × List HostCaptureRow)} {row : ArtifactRow} :
    ∀ {rowIndex : ℕ}, row ∈ requestMajor rowIndex requests →
      (∃ request ∈ requests, row.inputPosition = request.1 ∧ row.hostRow ∈ request.2) ∧
        row.dtype = LOGITS_DTYPE ∧ row.rowShape = row.logits.length := by
  induction requests with
  | nil => exact nofun
  | cons request rest ih =>
    intro rowIndex h
    obtain ⟨inputPosition, rows⟩ := request
    rcases List.mem_append.mp h with h | h
    · obtain ⟨⟨recorded, i⟩, hrecorded, rfl⟩ := List.mem_map.mp h
      exact ⟨⟨_, List.mem_cons_self, rfl, List.fst_mem_of_mem_zipIdx hrecorded⟩,
        rfl, rfl⟩
    · obtain ⟨⟨request, hrequest, hrow⟩, hvalues⟩ := ih h
      exact ⟨⟨request, List.mem_cons_of_mem _ hrequest, hrow⟩, hvalues⟩

theorem rowIndex_requestMajor (requests : List (ℕ × List HostCaptureRow)) :
    ∀ rowIndex, (requestMajor rowIndex requests).map (·.rowIndex) =
      List.range' rowIndex (requestMajor rowIndex requests).length := by
  induction requests with
  | nil => exact fun _ => rfl
  | cons request rest ih =>
    intro rowIndex
    obtain ⟨inputPosition, rows⟩ := request
    rw [requestMajor, List.map_append, List.map_map, ih, List.length_append, List.length_map,
      List.length_zipIdx, ← List.range'_append_1]
    congr 1
    exact List.zipIdx_map_snd _ _

theorem ordered_requestMajor {requests : List (ℕ × List HostCaptureRow)}
    (h : (requests.map Prod.fst).Pairwise (· ≤ ·)) :
    ∀ rowIndex, ((requestMajor rowIndex requests).map (·.inputPosition)).Pairwise (· ≤ ·) := by
  induction requests with
  | nil => exact fun _ => .nil
  | cons request rest ih =>
    intro rowIndex
    obtain ⟨inputPosition, rows⟩ := request
    rw [List.map_cons, List.pairwise_cons] at h
    have hfirst : ∀ position ∈ ((rows.zipIdx rowIndex).map fun recorded =>
        CaptureSession.artifactRow recorded.2 inputPosition recorded.1.spoolRow).map
          (·.inputPosition), position = inputPosition := by
      intro position hposition
      rw [List.map_map] at hposition
      obtain ⟨_, -, rfl⟩ := List.mem_map.mp hposition
      rfl
    rw [requestMajor, List.map_append, List.pairwise_append]
    refine ⟨List.pairwise_of_forall_mem_list fun a ha b hb => ?_, ih h.2 _, fun a ha b hb => ?_⟩
    · rw [hfirst a ha, hfirst b hb]
    · obtain ⟨row, hrow, rfl⟩ := List.mem_map.mp hb
      obtain ⟨⟨request, hrequest, hposition, -⟩, -⟩ := of_mem_requestMajor hrow
      rw [hfirst a ha, hposition]
      exact h.1 _ (List.mem_map_of_mem hrequest)

theorem filter_requestMajor (i : ℕ) (requests : List (ℕ × List HostCaptureRow)) :
    ∀ rowIndex, ((requestMajor rowIndex requests).filter fun row =>
        decide (row.inputPosition = i)).map ArtifactRow.hostRow =
      (requests.filter fun request => decide (request.1 = i)).flatMap Prod.snd := by
  induction requests with
  | nil => exact fun _ => rfl
  | cons request rest ih =>
    intro rowIndex
    obtain ⟨inputPosition, rows⟩ := request
    rw [requestMajor, List.filter_append, List.map_append, ih]
    by_cases hi : inputPosition = i
    · rw [List.filter_cons, if_pos (by simpa using hi), List.flatMap_cons]
      congr 1
      rw [List.filter_eq_self.mpr, List.map_map]
      · exact List.zipIdx_map_fst _ _
      · intro row hrow
        obtain ⟨_, -, rfl⟩ := List.mem_map.mp hrow
        exact decide_eq_true hi
    · rw [List.filter_cons, if_neg (by simpa using hi)]
      refine (congrArg (· ++ _) ?_).trans (List.nil_append _)
      rw [List.map_eq_nil_iff, List.filter_eq_nil_iff]
      intro row hrow
      obtain ⟨_, -, rfl⟩ := List.mem_map.mp hrow
      exact fun h => hi (of_decide_eq_true h)

namespace CaptureSession.Bound

/-- The rows of each request are its completion steps in order, and all rows have one width. -/
structure Complete (requestIds : List ℕ) (width : ℕ) (rows : List HostCaptureRow) : Prop where
  ids : ∀ row ∈ rows, row.requestId ∈ requestIds
  steps : ∀ id, (rowsOf rows id).map (·.completionStep) = List.range (rowsOf rows id).length
  width_ne : width ≠ 0
  width : ∀ row ∈ rows, row.logits.length = width
  finite : ∀ row ∈ rows, Finite row.logits

variable {requestIds : List ℕ} {rows : List HostCaptureRow} {width : ℕ}

theorem getElem?_bindings (requestIds : List ℕ) (i : ℕ) :
    (bindings requestIds)[i]? = requestIds[i]?.map fun id => ⟨i, id⟩ := by
  rw [bindings, List.getElem?_map, List.getElem?_zipIdx, Option.map_map]
  simp [Function.comp_def]

theorem length_bindings (requestIds : List ℕ) : (bindings requestIds).length = requestIds.length := by
  rw [bindings, List.length_map, List.length_zipIdx]

theorem getElem?_of_mem_bindings {binding : RequestBinding} (h : binding ∈ bindings requestIds) :
    (bindings requestIds)[binding.inputPosition]? = some binding := by
  obtain ⟨⟨id, i⟩, hmem, rfl⟩ := List.mem_map.mp h
  have hid : requestIds[i]? = some id := List.mk_mem_zipIdx_iff_getElem?.mp hmem
  rw [getElem?_bindings, hid]
  rfl

/-- The rows of the artifact at an input position. -/
theorem filter_artifact {i : ℕ} {binding : RequestBinding}
    (hbinding : (bindings requestIds)[i]? = some binding) :
    ((artifact requestIds rows).filter fun row => decide (row.inputPosition = i)).map
      ArtifactRow.hostRow = rowsOf rows binding.requestId := by
  have hposition : binding.inputPosition = i := by
    rw [getElem?_bindings] at hbinding
    obtain ⟨id, -, rfl⟩ := Option.map_eq_some_iff.mp hbinding
    rfl
  have honly : (bindings requestIds).filter (fun other => decide (other.inputPosition = i)) =
      [binding] := by
    have hnodup : ((bindings requestIds).map (·.inputPosition)).Nodup := by
      rw [bindings, List.map_map]
      exact (List.zipIdx_map_snd 0 requestIds).symm ▸ List.nodup_range'
    have hsame : ∀ other ∈ bindings requestIds, other.inputPosition = i → other = binding :=
      fun other hother heq => List.inj_on_of_nodup_map hnodup hother
        (List.mem_of_getElem? hbinding) (heq.trans hposition.symm)
    refine List.perm_singleton.mp ((List.perm_ext_iff_of_nodup
      ((hnodup.of_map _).filter _) (List.nodup_singleton _)).mpr fun other => ?_)
    rw [List.mem_filter, List.mem_singleton, decide_eq_true_iff]
    exact ⟨fun h => hsame other h.1 h.2, fun h => h ▸ ⟨List.mem_of_getElem? hbinding, hposition⟩⟩
  rw [artifact, filter_requestMajor, List.filter_map]
  simp only [Function.comp_def]
  rw [honly]
  simp

/-- Where a row of the artifact comes from. -/
theorem of_mem_artifact {row : ArtifactRow} (h : row ∈ artifact requestIds rows) :
    ∃ binding, (bindings requestIds)[row.inputPosition]? = some binding ∧
      row.hostRow ∈ rowsOf rows binding.requestId ∧ row.dtype = LOGITS_DTYPE ∧
        row.rowShape = row.logits.length := by
  obtain ⟨⟨request, hrequest, hposition, hrow⟩, hvalues⟩ := of_mem_requestMajor h
  obtain ⟨binding, hbinding, rfl⟩ := List.mem_map.mp hrequest
  exact ⟨binding, hposition ▸ getElem?_of_mem_bindings hbinding, hrow, hvalues⟩

/-- **The rows of an artifact are in request-major order.** -/
theorem Complete.requestMajor (h : Complete requestIds width rows) :
    RequestMajor (bindings requestIds) (artifact requestIds rows) width where
  rowIndex := by
    rw [artifact, rowIndex_requestMajor, List.range_eq_range']
  ordered := by
    refine ordered_requestMajor ?_ 0
    rw [List.map_map, bindings, List.map_map]
    exact (List.zipIdx_map_snd 0 requestIds).symm ▸ List.pairwise_le_range'
  binding := fun row hrow => by
    obtain ⟨binding, hbinding, hmem, -⟩ := of_mem_artifact hrow
    exact ⟨binding, hbinding, of_decide_eq_true (List.mem_filter.mp hmem).2⟩
  steps := fun i => by
    cases hbinding : (bindings requestIds)[i]? with
    | none =>
      refine ⟨0, ?_⟩
      rw [List.range_zero, List.map_eq_nil_iff, List.filter_eq_nil_iff]
      intro row hrow heq
      obtain ⟨binding, hsome, -⟩ := of_mem_artifact hrow
      rw [of_decide_eq_true heq, hbinding] at hsome
      cases hsome
    | some binding =>
      have hsteps := h.steps binding.requestId
      rw [← filter_artifact hbinding, List.map_map] at hsteps
      exact ⟨_, hsteps⟩
  width_ne := h.width_ne
  values := fun row hrow => by
    obtain ⟨binding, -, hmem, hdtype, hshape⟩ := of_mem_artifact hrow
    have hrecorded := (List.mem_filter.mp hmem).1
    have hlength : row.logits.length = width := h.width _ hrecorded
    exact ⟨hdtype, hshape.trans hlength, hlength, h.finite _ hrecorded⟩

end CaptureSession.Bound

end VllmOxide.GoldenCapture
