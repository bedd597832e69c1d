import VllmOxide.Attention.Lifecycle

/-!
# Safety of the attention lifecycle

The guards that exist tell the shared state: a reservation while the metadata are in preparation, at
most one step guard once they are ready, and one consumer guard exactly while a consumer is bound.
With it no interleaving of locked sections can lose a reservation, replace metadata that a consumer
is bound to, or hand out metadata of another epoch.

## Main definitions

* `AttentionWorld.Ok`: the guards and the shared state agree.

## Main results

* `AttentionWorld.Ok.step`: every locked section keeps that.
* `AttentionState.transactional_reserve` and its like: a locked section that fails changes nothing.
* `AttentionWorld.Reachable.lifecycle_safe`: the safety of every interleaving.
-/

namespace VllmOxide

/-! ### The locked sections -/

namespace AttentionState

variable {s s' : AttentionState} {epoch : AttentionEpoch} {prepared : PreparedEpoch}

theorem reserve_eq_ok_iff : reserve epoch s = .ok () s' ↔
    s.IsIdle ∧ s' = { s with lifecycle := .preparing epoch } := by
  obtain ⟨lifecycle, bound, calls, uploads, limits⟩ := s
  cases bound <;> cases lifecycle <;> simp [reserve, IsIdle, eq_comm]

theorem publish_eq_ok_iff : publish prepared s = .ok () s' ↔
    s.lifecycle = .preparing prepared.epoch ∧ s.boundConsumer = none ∧
      s' = { s with
        lifecycle := .ready prepared
        prepareCalls := s.prepareCalls + 1
        deviceTensorUploads := s.deviceTensorUploads + prepared.deviceTensorUploads } := by
  obtain ⟨lifecycle, bound, calls, uploads, limits⟩ := s
  cases bound <;> cases lifecycle <;> simp [publish]
  split <;> simp_all [eq_comm]

theorem bindConsumer_eq_ok_iff : bindConsumer epoch s = .ok () s' ↔
    (∃ prepared, s.lifecycle = .ready prepared ∧ prepared.epoch = epoch) ∧
      s.boundConsumer = none ∧ s' = { s with boundConsumer := some epoch } := by
  obtain ⟨lifecycle, bound, calls, uploads, limits⟩ := s
  cases bound <;> cases lifecycle <;> simp [bindConsumer]
  · split <;> simp_all [eq_comm]
  · split <;> simp_all

theorem preparedForBoundConsumer_eq_ok_iff : s.preparedForBoundConsumer = .ok prepared ↔
    s.lifecycle = .ready prepared ∧ s.boundConsumer = some prepared.epoch := by
  obtain ⟨lifecycle, bound, calls, uploads, limits⟩ := s
  cases bound <;> cases lifecycle <;> simp [preparedForBoundConsumer]
  split <;> simp_all [eq_comm]

theorem releaseConsumer_eq_ok_iff : releaseConsumer epoch s = .ok () s' ↔
    s.boundConsumer = some epoch ∧ s' = { s with boundConsumer := none } := by
  obtain ⟨lifecycle, bound, calls, uploads, limits⟩ := s
  cases bound <;> simp [releaseConsumer]
  split <;> simp_all [eq_comm]

theorem release_eq_ok_iff : release epoch s = .ok () s' ↔
    s.boundConsumer = none ∧
      (∃ prepared, s.lifecycle = .ready prepared ∧ prepared.epoch = epoch) ∧
        s' = { s with lifecycle := .idle } := by
  obtain ⟨lifecycle, bound, calls, uploads, limits⟩ := s
  cases bound <;> cases lifecycle <;> simp [release]
  split <;> simp_all [eq_comm]

theorem setComputeLimits_eq_ok {maxQueryTokens workspaceBytes : ℕ}
    (h : setComputeLimits maxQueryTokens workspaceBytes s = .ok () s') :
    s' = { s with computeLimits := some (maxQueryTokens, workspaceBytes) } := by
  rw [setComputeLimits] at h
  split at h
  · cases h
    rfl
  · cases h

/-! A locked section that fails changes nothing. -/

theorem transactional_setComputeLimits (maxQueryTokens workspaceBytes : ℕ) (s : AttentionState) :
    Transactional (setComputeLimits maxQueryTokens workspaceBytes) s := by
  intro error s' h
  rw [setComputeLimits] at h
  split at h <;> cases h
  rfl

theorem transactional_reserve (epoch : AttentionEpoch) (s : AttentionState) :
    Transactional (reserve epoch) s := by
  intro error s' h
  rw [reserve] at h
  split at h
  · cases h
    rfl
  · split at h <;> cases h <;> rfl

theorem transactional_publish (prepared : PreparedEpoch) (s : AttentionState) :
    Transactional (publish prepared) s := by
  intro error s' h
  rw [publish] at h
  split at h
  · split at h <;> cases h
    rfl
  · cases h
    rfl

theorem transactional_bindConsumer (epoch : AttentionEpoch) (s : AttentionState) :
    Transactional (bindConsumer epoch) s := by
  intro error s' h
  rw [bindConsumer] at h
  split at h
  · split at h
    · cases h
      rfl
    · split at h <;> cases h
      rfl
  · cases h
    rfl
  · cases h
    rfl

theorem transactional_releaseConsumer (epoch : AttentionEpoch) (s : AttentionState) :
    Transactional (releaseConsumer epoch) s := by
  intro error s' h
  rw [releaseConsumer] at h
  split at h
  · split at h <;> cases h
    rfl
  · cases h
    rfl

theorem transactional_release (epoch : AttentionEpoch) (s : AttentionState) :
    Transactional (release epoch) s := by
  intro error s' h
  rw [release] at h
  split at h
  · cases h
    rfl
  · split at h
    · split at h <;> cases h
      rfl
    · cases h
      rfl
    · cases h
      rfl

/-- A preparation that is dropped while it holds the reservation ends idle. -/
theorem cancelPreparation_of_preparing (h : s.lifecycle = .preparing epoch) :
    s.cancelPreparation epoch = { s with lifecycle := .idle } := by
  rw [cancelPreparation, h]
  exact if_pos rfl

/-- An uninterrupted preparation that fails ends idle if it began so, and otherwise changes
nothing. -/
theorem of_prepare_error {queryHeads : Option ℕ} {cache : PagedCacheGeometry}
    {logical : AttnMetadata} {error : String}
    (h : prepare queryHeads cache epoch logical s = .error error s') :
    s' = s ∨ s.IsIdle ∧ s'.IsIdle := by
  rw [prepare] at h
  cases hreserve : reserve epoch s with
  | error error s₁ =>
    rw [hreserve] at h
    cases h
    exact .inl (transactional_reserve _ _ _ _ hreserve)
  | ok a s₁ =>
    obtain ⟨hidle, rfl⟩ := reserve_eq_ok_iff.mp hreserve
    refine .inr ⟨hidle, ?_⟩
    rw [hreserve] at h
    have hcancelled : ({ s with lifecycle := .preparing epoch } : AttentionState).cancelPreparation
        epoch = { s with lifecycle := .idle } := cancelPreparation_of_preparing rfl
    simp only [completePreparation] at h
    split at h
    · cases h
      exact hcancelled ▸ ⟨rfl, hidle.2⟩
    · split at h
      · cases h
        exact hcancelled ▸ ⟨rfl, hidle.2⟩
      · split at h
        · cases h
        · rename_i hpublish
          cases h
          rw [transactional_publish _ _ _ _ hpublish, hcancelled]
          exact ⟨rfl, hidle.2⟩

end AttentionState

/-! ### The guards and the shared state -/

namespace AttentionWorld

/-- The guards and the shared state agree: in preparation there is one reservation and nothing else;
when metadata are ready, they are the last ones published, there is at most one step guard, and one
consumer guard exactly if a consumer is bound. -/
inductive Ok (w : AttentionWorld) : Prop
  | idle (hlifecycle : w.state.lifecycle = .idle) (hbound : w.state.boundConsumer = none)
      (hreservations : w.reservations = []) (hsteps : w.steps = []) (hconsumers : w.consumers = [])
  | preparing {r : AttentionReservation} (hlifecycle : w.state.lifecycle = .preparing r.epoch)
      (hbound : w.state.boundConsumer = none) (hreservations : w.reservations = [r])
      (hsteps : w.steps = []) (hconsumers : w.consumers = [])
  | ready {prepared : PreparedEpoch} (hlifecycle : w.state.lifecycle = .ready prepared)
      (hpublished : w.published.head? = some prepared) (hreservations : w.reservations = [])
      (hsteps : w.steps = [] ∨ ∃ g : AttentionGuard, w.steps = [g] ∧ g.epoch = prepared.epoch)
      (hconsumers : w.state.boundConsumer = none ∧ w.consumers = [] ∨
        w.state.boundConsumer = some prepared.epoch ∧ w.consumers = [⟨prepared.epoch, false⟩])

namespace Ok

variable {w w' : AttentionWorld} {queryHeads : Option ℕ}

theorem initial : Ok .initial :=
  .idle rfl rfl rfl rfl rfl

theorem of_idle (O : Ok w) (h : w.state.lifecycle = .idle) :
    w.state.boundConsumer = none ∧ w.reservations = [] ∧ w.steps = [] ∧ w.consumers = [] := by
  cases O with
  | idle hlifecycle hbound hreservations hsteps hconsumers =>
    exact ⟨hbound, hreservations, hsteps, hconsumers⟩
  | preparing hlifecycle => exact nomatch h.symm.trans hlifecycle
  | ready hlifecycle => exact nomatch h.symm.trans hlifecycle

/-- A reservation is the only guard, and metadata are in preparation for its epoch. -/
theorem of_reservation (O : Ok w) {r : AttentionReservation} {rest : List AttentionReservation}
    (hr : w.reservations.Perm (r :: rest)) :
    rest = [] ∧ w.state.lifecycle = .preparing r.epoch ∧ w.state.boundConsumer = none ∧
      w.steps = [] ∧ w.consumers = [] := by
  cases O with
  | idle _ _ hreservations =>
    rw [hreservations] at hr
    exact absurd hr.symm (List.not_perm_cons_nil)
  | preparing hlifecycle hbound hreservations hsteps hconsumers =>
    rw [hreservations] at hr
    obtain ⟨rfl, rfl⟩ := List.cons_eq_cons.mp (List.perm_singleton.mp hr.symm)
    exact ⟨rfl, hlifecycle, hbound, hsteps, hconsumers⟩
  | ready _ _ hreservations =>
    rw [hreservations] at hr
    exact absurd hr.symm (List.not_perm_cons_nil)

/-- Metadata that are ready are the last ones published, and no preparation goes on. -/
theorem of_ready (O : Ok w) {prepared : PreparedEpoch} (h : w.state.lifecycle = .ready prepared) :
    w.published.head? = some prepared ∧ w.reservations = [] ∧
      (w.steps = [] ∨ ∃ g : AttentionGuard, w.steps = [g] ∧ g.epoch = prepared.epoch) ∧
      (w.state.boundConsumer = none ∧ w.consumers = [] ∨
        w.state.boundConsumer = some prepared.epoch ∧
          w.consumers = [⟨prepared.epoch, false⟩]) := by
  cases O with
  | idle hlifecycle => exact nomatch h.symm.trans hlifecycle
  | preparing hlifecycle => exact nomatch h.symm.trans hlifecycle
  | ready hlifecycle hpublished hreservations hsteps hconsumers =>
    obtain rfl := AttentionLifecycle.ready.inj (h.symm.trans hlifecycle)
    exact ⟨hpublished, hreservations, hsteps, hconsumers⟩

/-- A bound consumer is bound to metadata that are ready, and has the only consumer guard. -/
theorem of_bound (O : Ok w) {epoch : AttentionEpoch} (h : w.state.boundConsumer = some epoch) :
    w.consumers = [⟨epoch, false⟩] ∧
      ∃ prepared, w.state.lifecycle = .ready prepared ∧ prepared.epoch = epoch := by
  cases O with
  | idle _ hbound => exact nomatch h.symm.trans hbound
  | preparing _ hbound => exact nomatch h.symm.trans hbound
  | @ready prepared hlifecycle _ _ _ hconsumers =>
    rcases hconsumers with ⟨hnone, -⟩ | ⟨hsome, hguard⟩
    · exact nomatch h.symm.trans hnone
    · obtain rfl := Option.some.inj (h.symm.trans hsome)
      exact ⟨hguard, prepared, hlifecycle, rfl⟩

/-- A consumer guard is the only one, and its consumer is bound. -/
theorem of_consumer (O : Ok w) {g : AttentionGuard} {rest : List AttentionGuard}
    (hg : w.consumers.Perm (g :: rest)) :
    rest = [] ∧ w.state.boundConsumer = some g.epoch ∧
      ∃ prepared, w.state.lifecycle = .ready prepared ∧ prepared.epoch = g.epoch := by
  have hsome : w.state.boundConsumer ≠ none := by
    intro hnone
    have hnil : w.consumers = [] := by
      cases O with
      | idle _ _ _ _ hconsumers => exact hconsumers
      | preparing _ _ _ _ hconsumers => exact hconsumers
      | ready _ _ _ _ hconsumers =>
        rcases hconsumers with ⟨-, hnil⟩ | ⟨hsome, -⟩
        · exact hnil
        · exact nomatch hnone.symm.trans hsome
    rw [hnil] at hg
    exact List.not_perm_cons_nil hg.symm
  obtain ⟨epoch, hbound⟩ := Option.ne_none_iff_exists'.mp hsome
  obtain ⟨hguard, hready⟩ := O.of_bound hbound
  rw [hguard] at hg
  obtain ⟨rfl, rfl⟩ := List.cons_eq_cons.mp (List.perm_singleton.mp hg.symm)
  exact ⟨rfl, hbound, hready⟩

/-- A step guard is the only one, and the metadata of its epoch are ready. -/
theorem of_step (O : Ok w) {g : AttentionGuard} {rest : List AttentionGuard}
    (hg : w.steps.Perm (g :: rest)) :
    rest = [] ∧ ∃ prepared, w.state.lifecycle = .ready prepared ∧ prepared.epoch = g.epoch := by
  cases O with
  | idle _ _ _ hsteps =>
    rw [hsteps] at hg
    exact absurd hg.symm List.not_perm_cons_nil
  | preparing _ _ _ hsteps =>
    rw [hsteps] at hg
    exact absurd hg.symm List.not_perm_cons_nil
  | ready hlifecycle _ _ hsteps =>
    rcases hsteps with hnil | ⟨only, honly, hepoch⟩
    · rw [hnil] at hg
      exact absurd hg.symm List.not_perm_cons_nil
    · rw [honly] at hg
      obtain ⟨rfl, rfl⟩ := List.cons_eq_cons.mp (List.perm_singleton.mp hg.symm)
      exact ⟨rfl, _, hlifecycle, hepoch.symm⟩

/-- Nothing that the agreement speaks about has changed. -/
theorem congr (O : Ok w) (hlifecycle : w'.state.lifecycle = w.state.lifecycle)
    (hbound : w'.state.boundConsumer = w.state.boundConsumer)
    (hreservations : w'.reservations = w.reservations) (hsteps : w'.steps = w.steps)
    (hconsumers : w'.consumers = w.consumers) (hpublished : w'.published = w.published) : Ok w' := by
  cases O with
  | idle h₁ h₂ h₃ h₄ h₅ =>
    exact .idle (hlifecycle.trans h₁) (hbound.trans h₂) (hreservations.trans h₃) (hsteps.trans h₄)
      (hconsumers.trans h₅)
  | preparing h₁ h₂ h₃ h₄ h₅ =>
    exact .preparing (hlifecycle.trans h₁) (hbound.trans h₂) (hreservations.trans h₃)
      (hsteps.trans h₄) (hconsumers.trans h₅)
  | ready h₁ h₂ h₃ h₄ h₅ =>
    refine .ready (hlifecycle.trans h₁) ?_ (hreservations.trans h₃) ?_ ?_
    · rw [hpublished, h₂]
    · rwa [hsteps]
    · rwa [hbound, hconsumers]

theorem reserve (O : Ok w) {s : AttentionState} {epoch : AttentionEpoch}
    (h : AttentionState.reserve epoch w.state = .ok () s) (logical : AttnMetadata) :
    Ok { w with
      state := s, reservations := ⟨epoch, logical, .reserved⟩ :: w.reservations } := by
  obtain ⟨⟨hidle, hbound⟩, rfl⟩ := AttentionState.reserve_eq_ok_iff.mp h
  obtain ⟨-, hreservations, hsteps, hconsumers⟩ := O.of_idle hidle
  have honly : (⟨epoch, logical, .reserved⟩ : AttentionReservation) :: w.reservations =
      [⟨epoch, logical, .reserved⟩] := by
    rw [hreservations]
  exact .preparing (r := ⟨epoch, logical, .reserved⟩) rfl hbound honly hsteps hconsumers

/-- A reservation goes on to another stage. -/
theorem toStage (O : Ok w) {r : AttentionReservation} {rest : List AttentionReservation}
    (hr : w.reservations.Perm (r :: rest)) (stage : PreparationStage) :
    Ok { w with reservations := { r with stage := stage } :: rest } := by
  obtain ⟨rfl, hlifecycle, hbound, hsteps, hconsumers⟩ := O.of_reservation hr
  exact .preparing (r := { r with stage := stage }) hlifecycle hbound rfl hsteps hconsumers

theorem publish (O : Ok w) {s : AttentionState} {r : AttentionReservation}
    {rest : List AttentionReservation} {attention : PreparedAttention}
    (hr : w.reservations.Perm (r :: rest))
    (h : AttentionState.publish ⟨r.epoch, attention⟩ w.state = .ok () s) :
    Ok { w with
      state := s
      reservations := rest
      steps := ⟨r.epoch, false⟩ :: w.steps
      published := ⟨r.epoch, attention⟩ :: w.published } := by
  obtain ⟨-, hbound, rfl⟩ := AttentionState.publish_eq_ok_iff.mp h
  obtain ⟨rfl, -, -, hsteps, hconsumers⟩ := O.of_reservation hr
  refine .ready rfl rfl rfl (.inr ⟨⟨r.epoch, false⟩, ?_, rfl⟩) (.inl ⟨hbound, hconsumers⟩)
  rw [hsteps]

theorem cancel (O : Ok w) {r : AttentionReservation} {rest : List AttentionReservation}
    (hr : w.reservations.Perm (r :: rest)) :
    Ok { w with state := w.state.cancelPreparation r.epoch, reservations := rest } := by
  obtain ⟨rfl, hlifecycle, hbound, hsteps, hconsumers⟩ := O.of_reservation hr
  rw [AttentionState.cancelPreparation_of_preparing hlifecycle]
  exact .idle rfl hbound rfl hsteps hconsumers

theorem bind (O : Ok w) {s : AttentionState} {epoch : AttentionEpoch}
    (h : AttentionState.bindConsumer epoch w.state = .ok () s) :
    Ok { w with state := s, consumers := ⟨epoch, false⟩ :: w.consumers } := by
  obtain ⟨⟨prepared, hready, rfl⟩, hbound, rfl⟩ := AttentionState.bindConsumer_eq_ok_iff.mp h
  obtain ⟨hpublished, hreservations, hsteps, hconsumers⟩ := O.of_ready hready
  rcases hconsumers with ⟨-, hnil⟩ | ⟨hsome, -⟩
  · refine .ready hready hpublished hreservations hsteps (.inr ⟨rfl, ?_⟩)
    rw [hnil]
  · exact nomatch hbound.symm.trans hsome

/-- The release of a consumer guard succeeds. -/
theorem releaseConsumer_eq (O : Ok w) {g : AttentionGuard} {rest : List AttentionGuard}
    (hg : w.consumers.Perm (g :: rest)) :
    AttentionState.releaseConsumer g.epoch w.state =
      .ok () { w.state with boundConsumer := none } :=
  AttentionState.releaseConsumer_eq_ok_iff.mpr ⟨(O.of_consumer hg).2.1, rfl⟩

theorem releaseConsumer (O : Ok w) {g : AttentionGuard} {rest : List AttentionGuard}
    (hg : w.consumers.Perm (g :: rest)) :
    Ok { w with state := { w.state with boundConsumer := none }, consumers := rest } := by
  obtain ⟨rfl, -, prepared, hready, -⟩ := O.of_consumer hg
  obtain ⟨hpublished, hreservations, hsteps, -⟩ := O.of_ready hready
  exact .ready hready hpublished hreservations hsteps (.inl ⟨rfl, rfl⟩)

/-- The release of a step guard ends idle if it succeeds. -/
theorem releaseStep (O : Ok w) {s : AttentionState} {g : AttentionGuard}
    {rest : List AttentionGuard} (hg : w.steps.Perm (g :: rest))
    (h : AttentionState.release g.epoch w.state = .ok () s) :
    Ok { w with state := s, steps := rest } := by
  obtain ⟨hbound, ⟨prepared, hready, -⟩, rfl⟩ := AttentionState.release_eq_ok_iff.mp h
  obtain ⟨rfl, -⟩ := O.of_step hg
  obtain ⟨-, hreservations, -, hconsumers⟩ := O.of_ready hready
  rcases hconsumers with ⟨-, hnil⟩ | ⟨hsome, -⟩
  · exact .idle rfl hbound hreservations rfl hnil
  · exact nomatch hbound.symm.trans hsome

/-- A step guard that cannot be released leaves the metadata as they are. -/
theorem keepReady (O : Ok w) {g : AttentionGuard} {rest steps : List AttentionGuard}
    (hg : w.steps.Perm (g :: rest))
    (hsteps : steps = rest ∨ steps = { g with failed := true } :: rest) :
    Ok { w with steps := steps } := by
  obtain ⟨rfl, prepared, hready, hepoch⟩ := O.of_step hg
  obtain ⟨hpublished, hreservations, -, hconsumers⟩ := O.of_ready hready
  refine .ready hready hpublished hreservations ?_ hconsumers
  rcases hsteps with rfl | rfl
  · exact .inl rfl
  · exact .inr ⟨_, rfl, hepoch.symm⟩

/-- **Every locked section** keeps the agreement. -/
theorem step (O : Ok w) {locked : LockedSection} (h : LifecycleStep queryHeads w locked w') :
    Ok w' := by
  cases h with
  | setComputeLimits h =>
    obtain rfl := AttentionState.setComputeLimits_eq_ok h
    exact O.congr rfl rfl rfl rfl rfl rfl
  | setComputeLimitsFails h =>
    obtain rfl := AttentionState.transactional_setComputeLimits _ _ _ _ _ h
    exact O
  | reserve logical h => exact O.reserve h logical
  | reserveFails h =>
    obtain rfl := AttentionState.transactional_reserve _ _ _ _ h
    exact O
  | readLimits cache hr hstage h => exact O.toStage hr _
  | publish hr hstage hprepare h => exact O.publish hr h
  | publishFails hr hstage hprepare h =>
    obtain rfl := AttentionState.transactional_publish _ _ _ _ h
    exact O.toStage hr _
  | cancel hr => exact O.cancel hr
  | bind h => exact O.bind h
  | bindFails h =>
    obtain rfl := AttentionState.transactional_bindConsumer _ _ _ _ h
    exact O
  | read => exact O
  | finishConsumer hg hfirst h =>
    rw [O.releaseConsumer_eq hg] at h
    cases h
    exact O.releaseConsumer hg
  | finishConsumerFails hg hfirst h =>
    rw [O.releaseConsumer_eq hg] at h
    cases h
  | dropConsumer hg =>
    rw [O.releaseConsumer_eq hg]
    exact O.releaseConsumer hg
  | finishStep hg hfirst h => exact O.releaseStep hg h
  | finishStepFails hg hfirst h =>
    obtain rfl := AttentionState.transactional_release _ _ _ _ h
    exact O.keepReady hg (.inr rfl)
  | @dropStep g rest hg =>
    cases hrelease : AttentionState.release g.epoch w.state with
    | ok a s => exact O.releaseStep hg hrelease
    | error error s =>
      obtain rfl := AttentionState.transactional_release _ _ _ _ hrelease
      exact O.keepReady hg (.inl rfl)

/-- While a consumer is bound, no locked section replaces or releases the metadata. -/
theorem lifecycle_of_bound (O : Ok w) {epoch : AttentionEpoch} {locked : LockedSection}
    (hbound : w.state.boundConsumer = some epoch) (h : LifecycleStep queryHeads w locked w') :
    w'.state.lifecycle = w.state.lifecycle := by
  cases h with
  | setComputeLimits h => rw [AttentionState.setComputeLimits_eq_ok h]
  | setComputeLimitsFails h => rw [AttentionState.transactional_setComputeLimits _ _ _ _ _ h]
  | reserve logical h =>
    exact nomatch hbound.symm.trans (AttentionState.reserve_eq_ok_iff.mp h).1.2
  | reserveFails h => rw [AttentionState.transactional_reserve _ _ _ _ h]
  | readLimits cache hr hstage h => rfl
  | publish hr hstage hprepare h =>
    exact nomatch hbound.symm.trans (AttentionState.publish_eq_ok_iff.mp h).2.1
  | publishFails hr hstage hprepare h => rw [AttentionState.transactional_publish _ _ _ _ h]
  | cancel hr => exact nomatch hbound.symm.trans (O.of_reservation hr).2.2.1
  | bind h => exact nomatch hbound.symm.trans (AttentionState.bindConsumer_eq_ok_iff.mp h).2.1
  | bindFails h => rw [AttentionState.transactional_bindConsumer _ _ _ _ h]
  | read => rfl
  | finishConsumer hg hfirst h => rw [(AttentionState.releaseConsumer_eq_ok_iff.mp h).2]
  | finishConsumerFails hg hfirst h =>
    rw [AttentionState.transactional_releaseConsumer _ _ _ _ h]
  | dropConsumer hg =>
    rw [O.releaseConsumer_eq hg]
    rfl
  | finishStep hg hfirst h =>
    exact nomatch hbound.symm.trans (AttentionState.release_eq_ok_iff.mp h).1
  | finishStepFails hg hfirst h => rw [AttentionState.transactional_release _ _ _ _ h]
  | @dropStep g rest hg =>
    cases hrelease : AttentionState.release g.epoch w.state with
    | ok a s => exact nomatch hbound.symm.trans (AttentionState.release_eq_ok_iff.mp hrelease).1
    | error error s =>
      rw [AttentionState.transactional_release _ _ _ _ hrelease]
      rfl

/-- A step guard whose consumers are gone is released. -/
theorem release_eq (O : Ok w) {g : AttentionGuard} {rest : List AttentionGuard}
    (hg : w.steps.Perm (g :: rest))
    (hgone : ∀ consumer ∈ w.consumers, consumer.epoch ≠ g.epoch) :
    AttentionState.release g.epoch w.state = .ok () { w.state with lifecycle := .idle } := by
  obtain ⟨-, prepared, hready, hepoch⟩ := O.of_step hg
  refine AttentionState.release_eq_ok_iff.mpr ⟨?_, ⟨prepared, hready, hepoch⟩, rfl⟩
  rcases (O.of_ready hready).2.2.2 with ⟨hbound, -⟩ | ⟨-, hconsumer⟩
  · exact hbound
  · refine absurd hepoch (hgone ⟨prepared.epoch, false⟩ ?_)
    rw [hconsumer]
    exact List.mem_singleton_self _

theorem length_guards_le (O : Ok w) :
    w.reservations.length + w.steps.length ≤ 1 ∧ w.consumers.length ≤ 1 := by
  cases O with
  | idle _ _ hreservations hsteps hconsumers => simp [hreservations, hsteps, hconsumers]
  | preparing _ _ hreservations hsteps hconsumers => simp [hreservations, hsteps, hconsumers]
  | ready _ _ hreservations hsteps hconsumers =>
    rcases hsteps with hsteps | ⟨g, hsteps, -⟩ <;>
      rcases hconsumers with ⟨-, hconsumers⟩ | ⟨-, hconsumers⟩ <;>
        simp [hreservations, hsteps, hconsumers]

end Ok

/-- Metadata that are ready have a step guard. -/
def Attended (w : AttentionWorld) : Prop :=
  ∀ prepared, w.state.lifecycle = .ready prepared → w.steps ≠ []

/-- Steps that are released after their consumers leave no metadata behind. -/
theorem Attended.step {w w' : AttentionWorld} {queryHeads : Option ℕ} {locked : LockedSection}
    (A : w.Attended) (O : w.Ok) (h : ConsumersFirst queryHeads w locked w') : w'.Attended := by
  obtain ⟨hstep, hfirst⟩ := h
  cases hstep with
  | setComputeLimits h =>
    rw [AttentionState.setComputeLimits_eq_ok h]
    exact A
  | setComputeLimitsFails h =>
    rw [AttentionState.transactional_setComputeLimits _ _ _ _ _ h]
    exact A
  | reserve logical h =>
    rw [(AttentionState.reserve_eq_ok_iff.mp h).2]
    exact fun prepared hready => nomatch hready
  | reserveFails h =>
    rw [AttentionState.transactional_reserve _ _ _ _ h]
    exact A
  | readLimits cache hr hstage h => exact A
  | publish hr hstage hprepare h => exact fun _ _ => List.cons_ne_nil _ _
  | publishFails hr hstage hprepare h =>
    rw [AttentionState.transactional_publish _ _ _ _ h]
    exact A
  | cancel hr =>
    rw [AttentionState.cancelPreparation_of_preparing (O.of_reservation hr).2.1]
    exact fun prepared hready => nomatch hready
  | bind h =>
    rw [(AttentionState.bindConsumer_eq_ok_iff.mp h).2.2]
    exact A
  | bindFails h =>
    rw [AttentionState.transactional_bindConsumer _ _ _ _ h]
    exact A
  | read => exact A
  | finishConsumer hg _ h =>
    rw [(AttentionState.releaseConsumer_eq_ok_iff.mp h).2]
    exact A
  | finishConsumerFails hg _ h =>
    rw [AttentionState.transactional_releaseConsumer _ _ _ _ h]
    exact A
  | dropConsumer hg =>
    rw [O.releaseConsumer_eq hg]
    exact A
  | finishStep hg _ h =>
    rw [(AttentionState.release_eq_ok_iff.mp h).2.2]
    exact fun prepared hready => nomatch hready
  | finishStepFails hg _ h => exact nomatch (O.release_eq hg (hfirst _ rfl)).symm.trans h
  | dropStep hg =>
    rw [O.release_eq hg (hfirst _ rfl)]
    exact fun prepared hready => nomatch hready

variable {queryHeads : Option ℕ} {w : AttentionWorld}

theorem Reachable.ok (h : w.Reachable queryHeads) : w.Ok := by
  obtain ⟨log, hrun⟩ := h
  exact hrun.invariant (P := fun _ w => w.Ok) .initial fun _ _ _ _ _ O hstep => O.step hstep

/-- The context is idle once all guards are gone, if no step was released before its consumers. -/
theorem isIdle_of_consumersFirst {log : List LockedSection}
    (h : Run (ConsumersFirst queryHeads) .initial log w) (hreservations : w.reservations = [])
    (hsteps : w.steps = []) : w.state.IsIdle := by
  have hkept : w.Ok ∧ w.Attended :=
    h.invariant (P := fun _ w => w.Ok ∧ w.Attended) ⟨.initial, fun _ hready => nomatch hready⟩
      fun _ _ _ _ _ ⟨O, A⟩ hstep => ⟨O.step hstep.1, A.step O hstep⟩
  obtain ⟨O, A⟩ := hkept
  cases O with
  | idle hlifecycle hbound => exact ⟨hlifecycle, hbound⟩
  | preparing _ _ hone => exact nomatch hreservations.symm.trans hone
  | ready hlifecycle => exact absurd hsteps (A _ hlifecycle)

/-- **An uninterrupted preparation** is a run of locked sections. -/
theorem run_prepare (queryHeads : Option ℕ) (cache : PagedCacheGeometry) (epoch : AttentionEpoch)
    (logical : AttnMetadata) (w : AttentionWorld) :
    ∃ log w', Run (LifecycleStep queryHeads) w log w' ∧
      w'.state = finalState (AttentionState.prepare queryHeads cache epoch logical w.state) := by
  rw [AttentionState.prepare]
  cases hreserve : AttentionState.reserve epoch w.state with
  | error error s => exact ⟨_, _, .single (.reserveFails hreserve), rfl⟩
  | ok a s =>
    have hreserved : Run (LifecycleStep queryHeads) w _ _ := .single (.reserve logical hreserve)
    simp only [AttentionState.completePreparation]
    cases hlimits : s.mathLimits queryHeads cache with
    | error error => exact ⟨_, _, hreserved.snoc (.cancel (.refl _)), rfl⟩
    | ok limits =>
      have hmeasured := hreserved.snoc (.readLimits cache (.refl _) rfl hlimits)
      dsimp only
      cases hprepare : PreparedAttention.prepareWithLimits logical limits with
      | error error => exact ⟨_, _, hmeasured.snoc (.cancel (.refl _)), rfl⟩
      | ok attention =>
        dsimp only
        cases hpublish : AttentionState.publish ⟨epoch, attention⟩ s with
        | ok a s' => exact ⟨_, _, hmeasured.snoc (.publish (.refl _) rfl hprepare hpublish), rfl⟩
        | error error s' =>
          have hlost := hmeasured.snoc (.publishFails (.refl _) rfl hprepare hpublish)
          refine ⟨_, _, hlost.snoc (.cancel (.refl _)), ?_⟩
          rw [← AttentionState.transactional_publish _ _ _ _ hpublish]
          rfl

/-- **The safety of every interleaving.** At most one reservation or step guard and one consumer
guard exist. While a consumer is bound to an epoch the metadata of that epoch are ready, and no locked
section replaces or releases them; what is read under it is what was published last, for that epoch.
A reservation is never lost; a preparation that fails ends idle when it began so, and nothing else
that fails changes anything. If no step is released before its consumers, the context is idle once
all guards are gone. -/
theorem Reachable.lifecycle_safe (h : w.Reachable queryHeads) :
    (w.reservations.length + w.steps.length ≤ 1 ∧ w.consumers.length ≤ 1) ∧
    (∀ epoch, w.state.boundConsumer = some epoch →
      (∃ prepared, w.state.lifecycle = .ready prepared ∧ prepared.epoch = epoch) ∧
        ∀ locked w', LifecycleStep queryHeads w locked w' →
          w'.state.lifecycle = w.state.lifecycle) ∧
    (∀ prepared, w.state.preparedForBoundConsumer = .ok prepared →
      w.state.boundConsumer = some prepared.epoch ∧ w.published.head? = some prepared) ∧
    (∀ r ∈ w.reservations, ∀ attention,
      ∃ s, AttentionState.publish ⟨r.epoch, attention⟩ w.state = .ok () s) ∧
    ((∀ r ∈ w.reservations, (w.state.cancelPreparation r.epoch).IsIdle) ∧
      ∀ cache epoch logical error s,
        AttentionState.prepare queryHeads cache epoch logical w.state = .error error s →
          s = w.state ∨ w.state.IsIdle ∧ s.IsIdle) ∧
    (∀ epoch prepared maxQueryTokens workspaceBytes,
      Transactional (AttentionState.reserve epoch) w.state ∧
        Transactional (AttentionState.publish prepared) w.state ∧
        Transactional (AttentionState.bindConsumer epoch) w.state ∧
        Transactional (AttentionState.releaseConsumer epoch) w.state ∧
        Transactional (AttentionState.release epoch) w.state ∧
        Transactional (AttentionState.setComputeLimits maxQueryTokens workspaceBytes) w.state) ∧
    (∀ log, Run (ConsumersFirst queryHeads) .initial log w →
      w.reservations = [] → w.steps = [] → w.consumers = [] → w.state.IsIdle) := by
  have O := h.ok
  refine ⟨⟨?_, ?_⟩, fun epoch hbound => ⟨(O.of_bound hbound).2, fun locked w' => ?_⟩,
    fun prepared hread => ?_, fun r hr attention => ?_, ⟨fun r hr => ?_, fun _ _ _ _ _ => ?_⟩,
    fun epoch prepared maxQueryTokens workspaceBytes =>
      ⟨AttentionState.transactional_reserve _ _, AttentionState.transactional_publish _ _,
        AttentionState.transactional_bindConsumer _ _,
        AttentionState.transactional_releaseConsumer _ _, AttentionState.transactional_release _ _,
        AttentionState.transactional_setComputeLimits _ _ _⟩,
    fun log hrun hreservations hsteps _ => isIdle_of_consumersFirst hrun hreservations hsteps⟩
  · exact O.length_guards_le.1
  · exact O.length_guards_le.2
  · exact O.lifecycle_of_bound hbound
  · obtain ⟨hready, hbound⟩ := AttentionState.preparedForBoundConsumer_eq_ok_iff.mp hread
    exact ⟨hbound, (O.of_ready hready).1⟩
  · obtain ⟨before, after, hsplit⟩ := List.append_of_mem hr
    obtain ⟨-, hlifecycle, hbound, -⟩ := O.of_reservation (hsplit ▸ List.perm_middle)
    exact ⟨_, AttentionState.publish_eq_ok_iff.mpr ⟨hlifecycle, hbound, rfl⟩⟩
  · obtain ⟨before, after, hsplit⟩ := List.append_of_mem hr
    obtain ⟨-, hlifecycle, hbound, -⟩ := O.of_reservation (hsplit ▸ List.perm_middle)
    rw [AttentionState.cancelPreparation_of_preparing hlifecycle]
    exact ⟨rfl, hbound⟩
  · exact AttentionState.of_prepare_error

/-- A clone prepares a step and binds its consumer. -/
theorem exists_reachable_bound :
    ∃ w : AttentionWorld, w.Reachable none ∧ w.state.boundConsumer = some (.stepPlan 7) := by
  have hprepared : (PreparedAttention.prepareWithLimits (buildPrefillMetadata [1] [1] [0])
      none).isOk = true := by
    decide +kernel
  cases hprepare : PreparedAttention.prepareWithLimits (buildPrefillMetadata [1] [1] [0]) none with
  | error error =>
    rw [hprepare] at hprepared
    cases hprepared
  | ok attention =>
    have hreserved : Run (LifecycleStep none) initial [.reserve (.stepPlan 7)] _ :=
      .single (.reserve (buildPrefillMetadata [1] [1] [0])
        (AttentionState.reserve_eq_ok_iff.mpr ⟨⟨rfl, rfl⟩, rfl⟩))
    have hmeasured := hreserved.snoc (.readLimits ⟨1, 1, 1, 1⟩ (.refl _) rfl rfl)
    have hpublished := hmeasured.snoc (.publish (.refl _) rfl hprepare
      (AttentionState.publish_eq_ok_iff.mpr ⟨rfl, rfl, rfl⟩))
    have hbound := hpublished.snoc (.bind
      (AttentionState.bindConsumer_eq_ok_iff.mpr ⟨⟨_, rfl, rfl⟩, rfl, rfl⟩))
    exact ⟨_, ⟨_, hbound⟩, rfl⟩

/-- Its metadata are ready and stay so through every locked section. -/
theorem lifecycle_safe_bound :
    ∃ w : AttentionWorld, w.state.boundConsumer = some (.stepPlan 7) ∧
      (∃ prepared, w.state.lifecycle = .ready prepared ∧ prepared.epoch = .stepPlan 7) ∧
      ∀ locked w', LifecycleStep none w locked w' → w'.state.lifecycle = w.state.lifecycle := by
  obtain ⟨w, hreachable, hbound⟩ := exists_reachable_bound
  exact ⟨w, hbound, hreachable.lifecycle_safe.2.1 _ hbound⟩

end AttentionWorld

end VllmOxide
