import Mathlib.Data.List.Basic
import Mathlib.Algebra.Order.Group.Nat

/-!
# Reading a stream in pieces

A reader returns some of the bytes that were asked for, at least one unless the stream has ended. A
loop that asks for the rest until it has everything, or until the stream has ended, therefore gets the
first part of the stream whatever the pieces are.

Two readers are given: one hands on a piece as far as it was asked for, and one collects pieces in a
buffer until there are enough.

## Main definitions

* `LawfulReader`: what a reader returns.
* `readLoop`: a loop that reads so many bytes.
* `Pieces`, `Buffered`: the two readers.

## Main results

* `LawfulReader.readLoop_eq`: the loop gets the first part of the stream.
-/

namespace VllmOxide

variable {B σ : Type}

/-- A reader returns a first part of the stream, no longer than it was asked for, and not empty unless
the stream has ended. -/
structure LawfulReader (read : ℕ → σ → List B × σ) (stream : σ → List B) : Prop where
  delivers : ∀ n s, (read n s).1 ++ stream (read n s).2 = stream s
  length_le : ∀ n s, (read n s).1.length ≤ n
  ended : ∀ n s, 0 < n → (read n s).1 = [] → stream s = []

/-- Reading `remaining` bytes, of which `ask remaining` are asked for at a time. Every round reads a
byte, so as many rounds as bytes are enough. -/
def readLoop (read : ℕ → σ → List B × σ) (ask : ℕ → ℕ) : ℕ → ℕ → σ → List B × σ
  | _, 0, s => ([], s)
  | 0, _ + 1, s => ([], s)
  | fuel + 1, remaining + 1, s =>
    let got := read (ask (remaining + 1)) s
    if got.1 = [] then ([], got.2)
    else
      let more := readLoop read ask fuel (remaining + 1 - got.1.length) got.2
      (got.1 ++ more.1, more.2)

namespace LawfulReader

variable {read : ℕ → σ → List B × σ} {stream : σ → List B}

/-- **The loop** gets the first part of the stream, as far as there is one. -/
theorem readLoop_eq (h : LawfulReader read stream) {ask : ℕ → ℕ}
    (hask : ∀ n, 0 < n → 0 < ask n ∧ ask n ≤ n) {fuel remaining : ℕ} (hfuel : remaining ≤ fuel)
    (s : σ) :
    (readLoop read ask fuel remaining s).1 = (stream s).take remaining ∧
      stream (readLoop read ask fuel remaining s).2 = (stream s).drop remaining := by
  induction fuel generalizing remaining s with
  | zero =>
    obtain rfl := Nat.le_zero.mp hfuel
    exact ⟨rfl, rfl⟩
  | succ fuel ih =>
    cases remaining with
    | zero => exact ⟨rfl, rfl⟩
    | succ remaining =>
      obtain ⟨hpos, hle⟩ := hask (remaining + 1) (Nat.succ_pos remaining)
      have hdelivers := h.delivers (ask (remaining + 1)) s
      have hlength := h.length_le (ask (remaining + 1)) s
      rw [readLoop]
      dsimp only
      split
      · rename_i hnil
        have hended := h.ended _ s hpos hnil
        rw [hended, hnil] at hdelivers
        rw [hended]
        exact ⟨List.take_nil.symm, hdelivers⟩
      · rename_i hne
        have hgot := List.length_pos_iff.mpr hne
        have hless : remaining + 1 - (read (ask (remaining + 1)) s).1.length ≤ fuel := by omega
        obtain ⟨hmore, hrest⟩ := ih hless (read (ask (remaining + 1)) s).2
        have hge : (read (ask (remaining + 1)) s).1.length ≤ remaining + 1 := hlength.trans hle
        rw [hmore, hrest, ← hdelivers, List.take_append, List.drop_append,
          List.take_of_length_le hge, List.drop_of_length_le hge, List.nil_append]
        exact ⟨rfl, rfl⟩

end LawfulReader

/-! ### Pieces -/

/-- A stream that arrives in pieces. -/
abbrev Pieces (B : Type) := List (List B)

/-- The next piece, as far as it was asked for. -/
def Pieces.read (n : ℕ) : Pieces B → List B × Pieces B
  | [] => ([], [])
  | [] :: rest => Pieces.read n rest
  | (byte :: piece) :: rest => ((byte :: piece).take n, (byte :: piece).drop n :: rest)

theorem Pieces.lawful : LawfulReader (Pieces.read (B := B)) List.flatten where
  delivers n s := by
    induction s with
    | nil => rfl
    | cons piece rest ih =>
      cases piece with
      | nil => exact ih
      | cons byte piece =>
        rw [Pieces.read, List.flatten_cons, List.flatten_cons, ← List.append_assoc,
          List.take_append_drop]
  length_le n s := by
    induction s with
    | nil => exact Nat.zero_le n
    | cons piece rest ih =>
      cases piece with
      | nil => exact ih
      | cons byte piece => exact List.length_take_le n _
  ended n s hpos h := by
    induction s with
    | nil => rfl
    | cons piece rest ih =>
      cases piece with
      | nil => exact ih h
      | cons byte piece =>
        rw [Pieces.read, List.take_eq_nil_iff] at h
        rcases h with h | h
        · omega
        · cases h

/-! ### Buffered reading -/

/-- A buffer in front of the pieces. -/
structure Buffered (B : Type) where
  buffer : List B
  pieces : Pieces B

/-- The bytes that are still to come. -/
def Buffered.stream (reader : Buffered B) : List B :=
  reader.buffer ++ reader.pieces.flatten

/-- Pieces are collected until there are enough bytes. -/
def Buffered.fill (n : ℕ) (buffer : List B) : Pieces B → Buffered B
  | [] => { buffer, pieces := [] }
  | piece :: rest =>
    if buffer.length < n then Buffered.fill n (buffer ++ piece) rest
    else { buffer, pieces := piece :: rest }

/-- So many bytes, or what is left of the stream. -/
def Buffered.read (n : ℕ) (reader : Buffered B) : List B × Buffered B :=
  let filled := Buffered.fill n reader.buffer reader.pieces
  (filled.buffer.take n, { filled with buffer := filled.buffer.drop n })

theorem Buffered.fill_spec (n : ℕ) (buffer : List B) (pieces : Pieces B) :
    (Buffered.fill n buffer pieces).stream = buffer ++ pieces.flatten ∧
      ((Buffered.fill n buffer pieces).buffer.length < n →
        (Buffered.fill n buffer pieces).pieces = []) := by
  induction pieces generalizing buffer with
  | nil => exact ⟨rfl, fun _ => rfl⟩
  | cons piece rest ih =>
    rw [Buffered.fill]
    split
    · obtain ⟨hstream, hended⟩ := ih (buffer ++ piece)
      exact ⟨by rw [hstream, List.flatten_cons, List.append_assoc], hended⟩
    · rename_i henough
      exact ⟨rfl, fun hlt => absurd hlt henough⟩

/-- The buffered reader returns everything that was asked for, as far as there is that much. -/
theorem Buffered.read_eq (n : ℕ) (reader : Buffered B) :
    (Buffered.read n reader).1 = reader.stream.take n ∧
      (Buffered.read n reader).2.stream = reader.stream.drop n := by
  obtain ⟨hstream, hended⟩ := Buffered.fill_spec n reader.buffer reader.pieces
  rw [Buffered.read]
  generalize Buffered.fill n reader.buffer reader.pieces = filled at hstream hended
  rw [Buffered.stream] at hstream
  rw [Buffered.stream, Buffered.stream, ← hstream]
  dsimp only
  rcases lt_or_ge filled.buffer.length n with hlt | hge
  · rw [hended hlt, List.flatten_nil, List.append_nil, List.append_nil]
    exact ⟨rfl, rfl⟩
  · rw [List.take_append_of_le_length hge, List.drop_append_of_le_length hge]
    exact ⟨rfl, rfl⟩

theorem Buffered.lawful : LawfulReader (Buffered.read (B := B)) Buffered.stream where
  delivers n s := by
    rw [(Buffered.read_eq n s).1, (Buffered.read_eq n s).2, List.take_append_drop]
  length_le n s := by
    rw [(Buffered.read_eq n s).1]
    exact List.length_take_le n _
  ended n s hpos h := by
    rw [(Buffered.read_eq n s).1, List.take_eq_nil_iff] at h
    exact h.resolve_left (Nat.ne_of_gt hpos)

end VllmOxide
