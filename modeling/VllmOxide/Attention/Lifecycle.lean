import VllmOxide.Attention.Kernels
import VllmOxide.Library.Run
import VllmOxide.Library.Transaction

/-!
# The lifecycle of prepared attention metadata

All clones of an attention context share one state. A step of the engine reserves it for an epoch,
prepares the metadata of the step outside the lock, publishes them, and releases them at the end; in
between one consumer may be bound to the epoch and read them. Reservations, steps and consumers are
guards that release what they stand for when they are finished or dropped.

The state is only touched under its lock. A world is the shared state together with the guards that
exist, and each step of a world is one locked section of some clone.

## Main definitions

* `AttentionState`: the shared state, with `reserve`, `publish`, `cancelPreparation`, `bindConsumer`,
  `preparedForBoundConsumer`, `releaseConsumer`, `release` and `setComputeLimits`.
* `AttentionState.prepare`: an uninterrupted preparation.
* `AttentionWorld`, `LifecycleStep`: the steps of all clones.
* `AttentionWorld.Reachable`, `ConsumersFirst`: any interleaving, and the ones in which the consumers
  of a step are released before the step.
-/

namespace VllmOxide

/-- What the metadata are prepared for. -/
inductive AttentionEpoch
  | stepPlan (planId : ℕ)
  | warmupPrefill
  | warmupDecode
deriving DecidableEq

instance : ToString AttentionEpoch where
  toString
    | .stepPlan planId => s!"StepPlan({planId})"
    | .warmupPrefill => "WarmupPrefill"
    | .warmupDecode => "WarmupDecode"

/-- The prepared metadata of an epoch. -/
structure PreparedEpoch where
  epoch : AttentionEpoch
  attention : PreparedAttention

/-- The number of tensors that are uploaded. -/
def PreparedEpoch.deviceTensorUploads (prepared : PreparedEpoch) : ℕ :=
  3 + (if prepared.attention.blockTable.isSome then 1 else 0) +
    (if prepared.attention.realRows.isSome then 1 else 0)

inductive AttentionLifecycle
  | idle
  | preparing (epoch : AttentionEpoch)
  | ready (prepared : PreparedEpoch)

/-- The state that the clones of a context share. -/
structure AttentionState where
  lifecycle : AttentionLifecycle
  boundConsumer : Option AttentionEpoch
  prepareCalls : ℕ
  deviceTensorUploads : ℕ
  computeLimits : Option (ℕ × ℕ)

/-- The geometry of the paged cache. -/
structure PagedCacheGeometry where
  kvHeads : ℕ
  headDim : ℕ
  blockSize : ℕ
  numBlocks : ℕ

namespace AttentionState

/-- The state of a new context. -/
def default : AttentionState where
  lifecycle := .idle
  boundConsumer := none
  prepareCalls := 0
  deviceTensorUploads := 0
  computeLimits := none

/-- Neither metadata nor a consumer. -/
def IsIdle (s : AttentionState) : Prop :=
  s.lifecycle = .idle ∧ s.boundConsumer = none

/-- `set_compute_limits`. -/
def setComputeLimits (maxQueryTokens workspaceBytes : ℕ) : EStateM String AttentionState Unit :=
  fun s =>
    match s.lifecycle, s.boundConsumer with
    | .idle, none => .ok () { s with computeLimits := some (maxQueryTokens, workspaceBytes) }
    | _, _ => .error "attention compute limits require an idle context" s

/-- `reserve`. -/
def reserve (epoch : AttentionEpoch) : EStateM String AttentionState Unit := fun s =>
  match s.boundConsumer with
  | some bound =>
    .error s!"attention context has bound consumer {bound}; cannot prepare {epoch}" s
  | none =>
    match s.lifecycle with
    | .idle => .ok () { s with lifecycle := .preparing epoch }
    | .preparing active =>
      .error s!"attention context is preparing {active}; cannot prepare {epoch}" s
    | .ready active =>
      .error s!"attention context is active for {active.epoch}; cannot prepare {epoch}" s

/-- The limits that the preparation works with: none without query heads. -/
def mathLimits (queryHeads : Option ℕ) (cache : PagedCacheGeometry) (s : AttentionState) :
    Except String (Option MathLimits) :=
  match queryHeads, s.computeLimits with
  | none, _ => .ok none
  | some _, none => .error "model attention compute limits are not initialized"
  | some queryHeads, some (maxQueryTokens, workspaceBytes) =>
    .ok (some
      { queryHeads := queryHeads
        kvHeads := cache.kvHeads
        headDim := cache.headDim
        blockSize := cache.blockSize
        numBlocks := cache.numBlocks
        maxQueryTokens := maxQueryTokens
        workspaceBytes := workspaceBytes })

/-- The publication at the end of `complete_preparation`. -/
def publish (prepared : PreparedEpoch) : EStateM String AttentionState Unit := fun s =>
  match s.lifecycle, s.boundConsumer with
  | .preparing current, none =>
    if current = prepared.epoch then
      .ok ()
        { s with
          lifecycle := .ready prepared
          prepareCalls := s.prepareCalls + 1
          deviceTensorUploads := s.deviceTensorUploads + prepared.deviceTensorUploads }
    else .error s!"attention context lost preparation reservation for {prepared.epoch}" s
  | _, _ => .error s!"attention context lost preparation reservation for {prepared.epoch}" s

/-- `cancel_preparation`. -/
def cancelPreparation (epoch : AttentionEpoch) (s : AttentionState) : AttentionState :=
  match s.lifecycle with
  | .preparing current => if current = epoch then { s with lifecycle := .idle } else s
  | _ => s

/-- `bind_consumer`. -/
def bindConsumer (expected : AttentionEpoch) : EStateM String AttentionState Unit := fun s =>
  match s.lifecycle with
  | .ready active =>
    if active.epoch ≠ expected then
      .error s!"stale attention consumer expected {expected}, active epoch is {active.epoch}" s
    else
      match s.boundConsumer with
      | some bound => .error s!"attention epoch {expected} already has bound consumer {bound}" s
      | none => .ok () { s with boundConsumer := some expected }
  | .preparing active =>
    .error s!"cannot bind attention consumer {expected}; {active} is still preparing" s
  | .idle => .error s!"cannot bind attention consumer {expected}; context is idle" s

/-- `prepared_for_bound_consumer`. -/
def preparedForBoundConsumer (s : AttentionState) : Except String PreparedEpoch :=
  match s.lifecycle, s.boundConsumer with
  | .ready prepared, some bound =>
    if prepared.epoch = bound then .ok prepared
    else .error s!"bound attention consumer {bound} does not match active epoch {prepared.epoch}"
  | .ready prepared, none => .error s!"attention epoch {prepared.epoch} has no bound consumer"
  | .preparing epoch, _ => .error s!"attention metadata for {epoch} is not ready"
  | .idle, _ => .error "attention context has no prepared metadata"

/-- `release_consumer`. -/
def releaseConsumer (epoch : AttentionEpoch) : EStateM String AttentionState Unit := fun s =>
  match s.boundConsumer with
  | some bound =>
    if bound = epoch then .ok () { s with boundConsumer := none }
    else .error s!"cannot release attention consumer {epoch}; bound consumer is {bound}" s
  | none => .error s!"cannot release attention consumer {epoch}; no consumer is bound" s

/-- `release`. -/
def release (epoch : AttentionEpoch) : EStateM String AttentionState Unit := fun s =>
  match s.boundConsumer with
  | some bound =>
    .error s!"cannot release attention epoch {epoch}; consumer {bound} is still bound" s
  | none =>
    match s.lifecycle with
    | .ready active =>
      if active.epoch = epoch then .ok () { s with lifecycle := .idle }
      else .error s!"cannot release attention epoch {epoch}; active epoch is {active.epoch}" s
    | .preparing active =>
      .error s!"cannot release attention epoch {epoch}; {active} is still preparing" s
    | .idle => .error s!"cannot release attention epoch {epoch}; context is idle" s

/-- `complete_preparation`, uninterrupted. The reservation is dropped with every error. -/
def completePreparation (queryHeads : Option ℕ) (cache : PagedCacheGeometry)
    (epoch : AttentionEpoch) (logical : AttnMetadata) : EStateM String AttentionState Unit :=
  fun s =>
    match s.mathLimits queryHeads cache with
    | .error error => .error error (s.cancelPreparation epoch)
    | .ok limits =>
      match PreparedAttention.prepareWithLimits logical limits with
      | .error error => .error error (s.cancelPreparation epoch)
      | .ok attention =>
        match publish ⟨epoch, attention⟩ s with
        | .ok () s => .ok () s
        | .error error s => .error error (s.cancelPreparation epoch)

/-- `prepare`, uninterrupted. -/
def prepare (queryHeads : Option ℕ) (cache : PagedCacheGeometry) (epoch : AttentionEpoch)
    (logical : AttnMetadata) : EStateM String AttentionState Unit := fun s =>
  match reserve epoch s with
  | .error error s => .error error s
  | .ok () s => completePreparation queryHeads cache epoch logical s

end AttentionState

/-! ### Guards -/

/-- How far a preparation has come: it is reserved, has read its limits, or has failed to publish. -/
inductive PreparationStage
  | reserved
  | measured (limits : Option MathLimits)
  | lost

/-- A preparation that holds its reservation. -/
structure AttentionReservation where
  epoch : AttentionEpoch
  logical : AttnMetadata
  stage : PreparationStage

/-- A step guard or a consumer guard. One whose `finish` has failed is still to be dropped. -/
structure AttentionGuard where
  epoch : AttentionEpoch
  failed : Bool

/-- The shared state with the guards that exist, and all that was published, the newest first. -/
structure AttentionWorld where
  state : AttentionState
  reservations : List AttentionReservation
  steps : List AttentionGuard
  consumers : List AttentionGuard
  published : List PreparedEpoch

/-- A new context. -/
def AttentionWorld.initial : AttentionWorld :=
  ⟨.default, [], [], [], []⟩

/-- The locked sections. -/
inductive LockedSection
  | setComputeLimits
  | reserve (epoch : AttentionEpoch)
  | readLimits (epoch : AttentionEpoch)
  | publish (epoch : AttentionEpoch)
  | cancel (epoch : AttentionEpoch)
  | bind (epoch : AttentionEpoch)
  | read
  | releaseConsumer (epoch : AttentionEpoch)
  | releaseStep (epoch : AttentionEpoch)

/-- One locked section of some clone. A preparation may be dropped at any time; a guard is finished
at most once, and is dropped unless that succeeds. -/
inductive LifecycleStep (queryHeads : Option ℕ) :
    AttentionWorld → LockedSection → AttentionWorld → Prop
  | setComputeLimits {w : AttentionWorld} {s : AttentionState} {maxQueryTokens workspaceBytes : ℕ}
      (h : AttentionState.setComputeLimits maxQueryTokens workspaceBytes w.state = .ok () s) :
      LifecycleStep queryHeads w .setComputeLimits { w with state := s }
  | setComputeLimitsFails {w : AttentionWorld} {s : AttentionState}
      {maxQueryTokens workspaceBytes : ℕ} {error : String}
      (h : AttentionState.setComputeLimits maxQueryTokens workspaceBytes w.state = .error error s) :
      LifecycleStep queryHeads w .setComputeLimits { w with state := s }
  | reserve {w : AttentionWorld} {s : AttentionState} {epoch : AttentionEpoch}
      (logical : AttnMetadata) (h : AttentionState.reserve epoch w.state = .ok () s) :
      LifecycleStep queryHeads w (.reserve epoch)
        { w with state := s, reservations := ⟨epoch, logical, .reserved⟩ :: w.reservations }
  | reserveFails {w : AttentionWorld} {s : AttentionState} {epoch : AttentionEpoch} {error : String}
      (h : AttentionState.reserve epoch w.state = .error error s) :
      LifecycleStep queryHeads w (.reserve epoch) { w with state := s }
  | readLimits {w : AttentionWorld} {r : AttentionReservation} {rest : List AttentionReservation}
      {limits : Option MathLimits} (cache : PagedCacheGeometry) (hr : w.reservations.Perm (r :: rest))
      (hstage : r.stage = .reserved) (h : w.state.mathLimits queryHeads cache = .ok limits) :
      LifecycleStep queryHeads w (.readLimits r.epoch)
        { w with reservations := { r with stage := .measured limits } :: rest }
  | publish {w : AttentionWorld} {s : AttentionState} {r : AttentionReservation}
      {rest : List AttentionReservation} {limits : Option MathLimits} {attention : PreparedAttention}
      (hr : w.reservations.Perm (r :: rest)) (hstage : r.stage = .measured limits)
      (hprepare : PreparedAttention.prepareWithLimits r.logical limits = .ok attention)
      (h : AttentionState.publish ⟨r.epoch, attention⟩ w.state = .ok () s) :
      LifecycleStep queryHeads w (.publish r.epoch)
        { w with
          state := s
          reservations := rest
          steps := ⟨r.epoch, false⟩ :: w.steps
          published := ⟨r.epoch, attention⟩ :: w.published }
  | publishFails {w : AttentionWorld} {s : AttentionState} {r : AttentionReservation}
      {rest : List AttentionReservation} {limits : Option MathLimits} {attention : PreparedAttention}
      {error : String} (hr : w.reservations.Perm (r :: rest)) (hstage : r.stage = .measured limits)
      (hprepare : PreparedAttention.prepareWithLimits r.logical limits = .ok attention)
      (h : AttentionState.publish ⟨r.epoch, attention⟩ w.state = .error error s) :
      LifecycleStep queryHeads w (.publish r.epoch)
        { w with state := s, reservations := { r with stage := .lost } :: rest }
  | cancel {w : AttentionWorld} {r : AttentionReservation} {rest : List AttentionReservation}
      (hr : w.reservations.Perm (r :: rest)) :
      LifecycleStep queryHeads w (.cancel r.epoch)
        { w with state := w.state.cancelPreparation r.epoch, reservations := rest }
  | bind {w : AttentionWorld} {s : AttentionState} {epoch : AttentionEpoch}
      (h : AttentionState.bindConsumer epoch w.state = .ok () s) :
      LifecycleStep queryHeads w (.bind epoch)
        { w with state := s, consumers := ⟨epoch, false⟩ :: w.consumers }
  | bindFails {w : AttentionWorld} {s : AttentionState} {epoch : AttentionEpoch} {error : String}
      (h : AttentionState.bindConsumer epoch w.state = .error error s) :
      LifecycleStep queryHeads w (.bind epoch) { w with state := s }
  | read {w : AttentionWorld} : LifecycleStep queryHeads w .read w
  | finishConsumer {w : AttentionWorld} {s : AttentionState} {g : AttentionGuard}
      {rest : List AttentionGuard} (hg : w.consumers.Perm (g :: rest)) (hfirst : g.failed = false)
      (h : AttentionState.releaseConsumer g.epoch w.state = .ok () s) :
      LifecycleStep queryHeads w (.releaseConsumer g.epoch) { w with state := s, consumers := rest }
  | finishConsumerFails {w : AttentionWorld} {s : AttentionState} {g : AttentionGuard}
      {rest : List AttentionGuard} {error : String} (hg : w.consumers.Perm (g :: rest))
      (hfirst : g.failed = false)
      (h : AttentionState.releaseConsumer g.epoch w.state = .error error s) :
      LifecycleStep queryHeads w (.releaseConsumer g.epoch)
        { w with state := s, consumers := { g with failed := true } :: rest }
  | dropConsumer {w : AttentionWorld} {g : AttentionGuard} {rest : List AttentionGuard}
      (hg : w.consumers.Perm (g :: rest)) :
      LifecycleStep queryHeads w (.releaseConsumer g.epoch)
        { w with
          state := finalState (AttentionState.releaseConsumer g.epoch w.state)
          consumers := rest }
  | finishStep {w : AttentionWorld} {s : AttentionState} {g : AttentionGuard}
      {rest : List AttentionGuard} (hg : w.steps.Perm (g :: rest)) (hfirst : g.failed = false)
      (h : AttentionState.release g.epoch w.state = .ok () s) :
      LifecycleStep queryHeads w (.releaseStep g.epoch) { w with state := s, steps := rest }
  | finishStepFails {w : AttentionWorld} {s : AttentionState} {g : AttentionGuard}
      {rest : List AttentionGuard} {error : String} (hg : w.steps.Perm (g :: rest))
      (hfirst : g.failed = false) (h : AttentionState.release g.epoch w.state = .error error s) :
      LifecycleStep queryHeads w (.releaseStep g.epoch)
        { w with state := s, steps := { g with failed := true } :: rest }
  | dropStep {w : AttentionWorld} {g : AttentionGuard} {rest : List AttentionGuard}
      (hg : w.steps.Perm (g :: rest)) :
      LifecycleStep queryHeads w (.releaseStep g.epoch)
        { w with state := finalState (AttentionState.release g.epoch w.state), steps := rest }

/-- The worlds that the locked sections of any number of clones reach. -/
def AttentionWorld.Reachable (queryHeads : Option ℕ) (w : AttentionWorld) : Prop :=
  ∃ log, Run (LifecycleStep queryHeads) .initial log w

/-- A step after which no step has been released before its consumers. -/
def ConsumersFirst (queryHeads : Option ℕ) (w : AttentionWorld) (locked : LockedSection)
    (w' : AttentionWorld) : Prop :=
  LifecycleStep queryHeads w locked w' ∧
    ∀ epoch, locked = .releaseStep epoch → ∀ consumer ∈ w.consumers, consumer.epoch ≠ epoch

end VllmOxide
