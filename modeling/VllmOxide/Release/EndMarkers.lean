import Mathlib.Algebra.Order.Group.Nat
import Mathlib.Data.List.Basic
import VllmOxide.Library.Outcome

/-!
# The end markers of an archive

While an archive is extracted, a tracking reader sits between the decoder and the archive reader. It
counts the bytes that pass, and once the end of an entry was announced it keeps the bytes behind that
end, up to a limit. The archive reader announces the end of each entry and may read in pieces of any
size, so a read may straddle the end, and bytes that were kept for an earlier entry belong to the next
one. After the last read the kept bytes decide whether the archive ends as it has to.

## Main definitions

* `UstarStructure`, `setLastEntryEnd`, `read`, `validateEndMarkers`: the tracker.
* `TrackerCall`, `drain`: what an archive reader may do with it.
* `Tracks`: what the tracker knows about the bytes that passed.
* `EndMarkers`: the bytes with which an archive has to end.

## Main results

* `Tracks.read`, `Tracks.setLastEntryEnd`: every call keeps what the tracker knows.
* `validateEndMarkers_drain`: the verdict depends on the bytes behind the last announced end only.
-/

namespace VllmOxide.Release

/-- `USTAR_BLOCK_BYTES`. -/
def USTAR_BLOCK_BYTES : ℕ := 512

/-- `USTAR_END_MARKER_BYTES`. -/
def USTAR_END_MARKER_BYTES : ℕ := 2 * USTAR_BLOCK_BYTES

/-- `USTAR_TRAILING_LIMIT`. -/
def USTAR_TRAILING_LIMIT : ℕ := 1024 * 1024

/-- `u64::MAX`. -/
def U64_MAX : ℕ := 2 ^ 64 - 1

/-! ### The tracker -/

/-- `UstarStructure`. -/
structure UstarStructure where
  position : ℕ
  captureFrom : Option ℕ
  trailing : List UInt8
  overflowed : Bool
deriving DecidableEq

namespace UstarStructure

/-- `UstarStructureTracker::new`. -/
def new : UstarStructure where
  position := 0
  captureFrom := none
  trailing := []
  overflowed := false

/-- `set_last_entry_end`. -/
def setLastEntryEnd (entryEnd : ℕ) : EStateM String UstarStructure Unit := fun state =>
  if entryEnd < state.position then
    .error "USTAR reader advanced beyond the declared entry payload" state
  else
    .ok () { state with captureFrom := some entryEnd, trailing := [], overflowed := false }

/-- `validate_end_markers`. -/
def validateEndMarkers (state : UstarStructure) : Except String Unit :=
  bailIf (state.captureFrom.isNone ∨ state.overflowed ∨
      state.trailing.length < USTAR_END_MARKER_BYTES ∨
      ¬ USTAR_BLOCK_BYTES ∣ state.trailing.length ∨ ∃ byte ∈ state.trailing, byte ≠ 0)
    "archive must end with at least two zero USTAR end blocks and only zero record padding"

/-- `Read::read`, after the inner reader has put `count` bytes at the start of the buffer. -/
def read (buffer : List UInt8) (count : ℕ) : EStateM String UstarStructure ℕ := fun state =>
  let start := state.position
  if U64_MAX < start + count then
    .error "USTAR stream position overflow" state
  else
    let state := { state with position := start + count }
    match state.captureFrom with
    | none => .ok count state
    | some captureFrom =>
      if captureFrom < state.position then
        let offset := min (captureFrom - start) count
        let available := USTAR_TRAILING_LIMIT - state.trailing.length
        let captured := (buffer.take count).drop offset
        .ok count { state with
          trailing := state.trailing ++ captured.take (min captured.length available)
          overflowed := state.overflowed || decide (available < captured.length) }
      else .ok count state

end UstarStructure

/-! ### Calls -/

/-- What an archive reader does: it reads into a buffer, of which the inner reader fills a first part,
or it announces the end of an entry. -/
inductive TrackerCall
  | read (buffer : List UInt8) (count : ℕ) (fits : count ≤ buffer.length)
  | setLastEntryEnd (entryEnd : ℕ)

/-- A sequence of calls. A refused announcement does not stop it, but a failed read does: the stream
is then never drained. -/
def drain : List TrackerCall → EStateM String UstarStructure Unit
  | [], state => .ok () state
  | .read buffer count _ :: rest, state =>
    match UstarStructure.read buffer count state with
    | .ok _ state => drain rest state
    | .error error state => .error error state
  | .setLastEntryEnd entryEnd :: rest, state =>
    match UstarStructure.setLastEntryEnd entryEnd state with
    | .ok _ state => drain rest state
    | .error _ state => drain rest state

/-- The bytes that the calls read. -/
def delivered : List TrackerCall → List UInt8
  | [] => []
  | .read buffer count _ :: rest => buffer.take count ++ delivered rest
  | .setLastEntryEnd _ :: rest => delivered rest

/-- The last announced end that does not lie before the position at which it was announced. -/
def lastEntryEnd (position : ℕ) (last : Option ℕ) : List TrackerCall → Option ℕ
  | [] => last
  | .read _ count _ :: rest => lastEntryEnd (position + count) last rest
  | .setLastEntryEnd entryEnd :: rest =>
    lastEntryEnd position (if entryEnd < position then last else some entryEnd) rest

/-- The bytes with which an archive has to end: zeros in whole blocks, at least two of them and at
most a mebibyte. -/
structure EndMarkers (tail : List UInt8) : Prop where
  zero : ∀ byte ∈ tail, byte = 0
  least : 1024 ≤ tail.length
  most : tail.length ≤ 1024 * 1024
  blocks : 512 ∣ tail.length

/-! ### What the tracker knows -/

/-- The tracker after some bytes, of which the part behind the last announced end is kept as far as
the limit allows. -/
structure Tracks (bytes : List UInt8) (last : Option ℕ) (state : UstarStructure) : Prop where
  position : state.position = bytes.length
  counted : bytes.length ≤ U64_MAX
  captureFrom : state.captureFrom = last
  trailing : ∀ entryEnd, last = some entryEnd →
    state.trailing = (bytes.drop entryEnd).take USTAR_TRAILING_LIMIT
  overflowed : ∀ entryEnd, last = some entryEnd →
    (state.overflowed = true ↔ USTAR_TRAILING_LIMIT < (bytes.drop entryEnd).length)

namespace Tracks

variable {bytes : List UInt8} {last : Option ℕ} {state : UstarStructure}

theorem new : Tracks [] none .new where
  position := rfl
  counted := Nat.zero_le _
  captureFrom := rfl
  trailing := nofun
  overflowed := nofun

/-- An announced end behind the position starts the part to keep, and it is empty so far. -/
theorem setLastEntryEnd (h : Tracks bytes last state) {entryEnd : ℕ}
    (hle : state.position ≤ entryEnd) :
    ∃ state', UstarStructure.setLastEntryEnd entryEnd state = .ok () state' ∧
      Tracks bytes (some entryEnd) state' := by
  have hnone : bytes.drop entryEnd = [] := List.drop_of_length_le (h.position ▸ hle)
  refine ⟨_, if_neg (not_lt.mpr hle), h.position, h.counted, rfl, fun e he => ?_, fun e he => ?_⟩
  · obtain rfl := Option.some.inj he
    rw [hnone, List.take_nil]
  · obtain rfl := Option.some.inj he
    simp [hnone]

/-- A read adds its bytes to the part to keep, from the announced end on. -/
theorem read (h : Tracks bytes last state) {buffer : List UInt8} {count : ℕ}
    (hfits : count ≤ buffer.length) (hposition : bytes.length + count ≤ U64_MAX) :
    ∃ state', UstarStructure.read buffer count state = .ok count state' ∧
      Tracks (bytes ++ buffer.take count) last state' := by
  have hlength : (buffer.take count).length = count := by rw [List.length_take, min_eq_left hfits]
  have hroom : ¬ U64_MAX < state.position + count := by
    rw [h.position]
    exact not_lt.mpr hposition
  have hbytes : state.position + count = (bytes ++ buffer.take count).length := by
    rw [List.length_append, hlength, h.position]
  have hcounted : (bytes ++ buffer.take count).length ≤ U64_MAX := by
    rwa [List.length_append, hlength]
  rw [UstarStructure.read]
  dsimp only
  rw [if_neg hroom, h.captureFrom]
  cases last with
  | none =>
    exact ⟨_, rfl, hbytes, hcounted, rfl, nofun, nofun⟩
  | some entryEnd =>
    have htrailing := h.trailing entryEnd rfl
    have hoverflowed := h.overflowed entryEnd rfl
    have hsplit : (bytes ++ buffer.take count).drop entryEnd =
        bytes.drop entryEnd ++ (buffer.take count).drop (entryEnd - bytes.length) := List.drop_append
    dsimp only
    split
    · rename_i hlt
      have hoffset : min (entryEnd - state.position) count = entryEnd - bytes.length := by
        rw [h.position] at hlt ⊢
        omega
      have hkept : state.trailing.length = min USTAR_TRAILING_LIMIT (bytes.drop entryEnd).length := by
        rw [htrailing, List.length_take]
      rw [hoffset]
      refine ⟨_, rfl, hbytes, hcounted, rfl, fun e he => ?_, fun e he => ?_⟩
      · obtain rfl := Option.some.inj he
        have havailable : USTAR_TRAILING_LIMIT - state.trailing.length =
            USTAR_TRAILING_LIMIT - (bytes.drop entryEnd).length := by omega
        dsimp only
        rw [hsplit, List.take_append, ← htrailing, havailable, min_comm, ← List.take_eq_take_min]
      · obtain rfl := Option.some.inj he
        rw [hsplit, List.length_append, Bool.or_eq_true, hoverflowed, decide_eq_true_iff]
        omega
    · rename_i hge
      have hnone : (buffer.take count).drop (entryEnd - bytes.length) = [] := by
        refine List.drop_of_length_le ?_
        rw [hlength]
        rw [h.position] at hge
        omega
      refine ⟨_, rfl, hbytes, hcounted, rfl, fun e he => ?_, fun e he => ?_⟩
      · obtain rfl := Option.some.inj he
        rw [hsplit, hnone, List.append_nil]
        exact htrailing
      · obtain rfl := Option.some.inj he
        rw [hsplit, hnone, List.append_nil]
        exact hoverflowed

end Tracks

/-! ### The verdict -/

/-- The kept bytes decide as all bytes behind the last announced end do. -/
theorem validateEndMarkers_iff {bytes : List UInt8} {last : Option ℕ} {state : UstarStructure}
    (h : Tracks bytes last state) :
    state.validateEndMarkers = .ok () ↔
      ∃ entryEnd, last = some entryEnd ∧ EndMarkers (bytes.drop entryEnd) := by
  have hbail : state.validateEndMarkers = .ok () ↔ ¬ (last.isNone ∨ state.overflowed ∨
      state.trailing.length < USTAR_END_MARKER_BYTES ∨
      ¬ USTAR_BLOCK_BYTES ∣ state.trailing.length ∨ ∃ byte ∈ state.trailing, byte ≠ 0) := by
    rw [← h.captureFrom]
    exact ⟨not_of_bailIf_ok, bailIf_of_not⟩
  rw [hbail]
  cases last with
  | none => exact ⟨fun hnot => absurd (.inl rfl) hnot, nofun⟩
  | some entryEnd =>
    have htrailing := h.trailing entryEnd rfl
    have hoverflowed := h.overflowed entryEnd rfl
    have hwhole (hle : (bytes.drop entryEnd).length ≤ USTAR_TRAILING_LIMIT) :
        state.trailing = bytes.drop entryEnd := by rw [htrailing, List.take_of_length_le hle]
    constructor
    · intro hnot
      push Not at hnot
      obtain ⟨-, hfits, hleast, hblocks, hzero⟩ := hnot
      have hmost : (bytes.drop entryEnd).length ≤ USTAR_TRAILING_LIMIT :=
        not_lt.mp fun hlt => hfits (hoverflowed.mpr hlt)
      rw [hwhole hmost] at hleast hblocks hzero
      exact ⟨entryEnd, rfl, hzero, hleast, hmost, hblocks⟩
    · rintro ⟨e, he, hmarkers⟩
      obtain rfl := Option.some.inj he
      rw [hwhole hmarkers.most, hoverflowed]
      rintro (hnone | hlt | hlt | hblocks | ⟨byte, hmem, hne⟩)
      · cases hnone
      · exact absurd hmarkers.most (not_le.mpr hlt)
      · exact absurd hmarkers.least (not_le.mpr hlt)
      · exact hblocks hmarkers.blocks
      · exact hne (hmarkers.zero byte hmem)

/-- A sequence of calls keeps what the tracker knows, and fails exactly if more bytes pass than can be
counted. -/
theorem Tracks.drain (calls : List TrackerCall) :
    ∀ {bytes : List UInt8} {last : Option ℕ} {state : UstarStructure}, Tracks bytes last state →
      ((∃ state', drain calls state = .ok () state') ↔
        (bytes ++ delivered calls).length ≤ U64_MAX) ∧
      ∀ state', drain calls state = .ok () state' →
        Tracks (bytes ++ delivered calls) (lastEntryEnd bytes.length last calls) state' := by
  induction calls with
  | nil =>
    intro bytes last state h
    rw [delivered, List.append_nil]
    refine ⟨iff_of_true ⟨state, rfl⟩ h.counted, fun state' hrun => ?_⟩
    obtain ⟨-, rfl⟩ := EStateM.Result.ok.inj hrun
    exact h
  | cons call rest ih =>
    intro bytes last state h
    cases call with
    | read buffer count fits =>
      have hlength : (bytes ++ buffer.take count).length = bytes.length + count := by
        rw [List.length_append, List.length_take, min_eq_left fits]
      have hbytes : bytes ++ delivered (.read buffer count fits :: rest) =
          bytes ++ buffer.take count ++ delivered rest := by rw [delivered, List.append_assoc]
      rw [VllmOxide.Release.drain, hbytes, lastEntryEnd, ← hlength]
      by_cases hposition : bytes.length + count ≤ U64_MAX
      · obtain ⟨state', hrun, htracks⟩ := h.read fits hposition
        rw [hrun]
        exact ih htracks
      · have hfailed : UstarStructure.read buffer count state = .error _ state :=
          if_pos (h.position ▸ not_le.mp hposition)
        rw [hfailed]
        refine ⟨iff_of_false ?_ fun hle => ?_, nofun⟩
        · rintro ⟨state', hrun⟩
          cases hrun
        · rw [List.length_append, hlength] at hle
          omega
    | setLastEntryEnd entryEnd =>
      rw [VllmOxide.Release.drain, lastEntryEnd]
      by_cases hlt : entryEnd < bytes.length
      · have hrefused : UstarStructure.setLastEntryEnd entryEnd state = .error _ state :=
          if_pos (h.position ▸ hlt)
        rw [hrefused, if_pos hlt]
        exact ih h
      · obtain ⟨state', hrun, htracks⟩ := h.setLastEntryEnd (h.position ▸ not_lt.mp hlt)
        rw [hrun, if_neg hlt]
        exact ih htracks

/-- **End markers.** However the stream is cut into reads, and whatever ends were announced before:
the stream can be drained if its bytes can be counted, and then it is accepted exactly if an end was
announced and the bytes behind the last one are end markers. An announcement is refused exactly if the
end lies before the position, and then it changes nothing. -/
theorem validateEndMarkers_drain (calls : List TrackerCall) :
    ((∃ state, drain calls .new = .ok () state) ↔ (delivered calls).length ≤ U64_MAX) ∧
    (∀ state, drain calls .new = .ok () state →
      (state.validateEndMarkers = .ok () ↔ ∃ entryEnd, lastEntryEnd 0 none calls = some entryEnd ∧
        EndMarkers ((delivered calls).drop entryEnd))) ∧
    ∀ state entryEnd, (state.position ≤ entryEnd ∧
        ∃ state', UstarStructure.setLastEntryEnd entryEnd state = .ok () state') ∨
      (entryEnd < state.position ∧
        ∃ error, UstarStructure.setLastEntryEnd entryEnd state = .error error state) := by
  obtain ⟨hdrained, htracks⟩ := Tracks.drain calls .new
  refine ⟨hdrained, fun state hrun => validateEndMarkers_iff (htracks state hrun),
    fun state entryEnd => ?_⟩
  by_cases hlt : entryEnd < state.position
  · exact .inr ⟨hlt, _, if_pos hlt⟩
  · exact .inl ⟨not_lt.mp hlt, _, if_neg hlt⟩

end VllmOxide.Release
