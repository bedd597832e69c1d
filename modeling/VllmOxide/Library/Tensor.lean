import Mathlib.Algebra.BigOperators.Group.List.Basic
import Mathlib.Algebra.BigOperators.Group.Finset.Basic
import Mathlib.Algebra.Ring.Defs
import Mathlib.Tactic.Ring

/-!
# Dense tensors

A dense tensor is a shape with the row-major list of its entries. An index is a list of
coordinates, one for each axis. The operations are those of a tensor library: a reshape keeps the
entries and changes the shape; the others are given by the entry at each index, and are refused when
the shapes do not fit.

## Main definitions

* `offset`, `unravel`, `InBounds`: row-major order.
* `Tensor`, `Tensor.ofFn`, `Tensor.get`: tensors and their entries.
* `Tensor.reshape`, `Tensor.transpose`, `Tensor.narrow`, `Tensor.cat`, `Tensor.matmul`, …: the
  operations.
* `tiles`: the consecutive pieces of an axis.

## Main results

* `unravel_offset`, `offset_unravel`: an index and its place in the row-major order determine each
  other.
* `Tensor.get_ofFn`, `Tensor.ext_get`: a tensor is its shape and its entries.
* `Tensor.cat_tiles`: the concatenation of consecutive pieces of a tensor is the tensor.
-/

namespace VllmOxide

/-! ### Row-major order -/

/-- The place of an index in the row-major order of a shape. -/
def offset : (dims index : List ℕ) → ℕ
  | _ :: dims, i :: index => i * dims.prod + offset dims index
  | _, _ => 0

/-- The index at a place of the row-major order of a shape. -/
def unravel : (dims : List ℕ) → ℕ → List ℕ
  | [], _ => []
  | _ :: dims, n => n / dims.prod :: unravel dims (n % dims.prod)

/-- The index has a coordinate for every axis, and each is within its axis. -/
def InBounds (dims index : List ℕ) : Prop :=
  List.Forall₂ (fun i d => i < d) index dims

@[simp] theorem inBounds_nil {index : List ℕ} : InBounds [] index ↔ index = [] := by
  simp [InBounds]

@[simp] theorem inBounds_cons {d i : ℕ} {dims index : List ℕ} :
    InBounds (d :: dims) (i :: index) ↔ i < d ∧ InBounds dims index := by
  simp [InBounds]

theorem not_inBounds_cons_nil {d : ℕ} {dims : List ℕ} : ¬ InBounds (d :: dims) [] := by
  simp [InBounds]

theorem InBounds.offset_lt {dims index : List ℕ} (h : InBounds dims index) :
    offset dims index < dims.prod := by
  induction h with
  | nil => simp [offset]
  | @cons i d index dims hi _ ih =>
    rw [offset, List.prod_cons]
    calc i * dims.prod + offset dims index < i * dims.prod + dims.prod := by omega
      _ = (i + 1) * dims.prod := by ring
      _ ≤ d * dims.prod := Nat.mul_le_mul_right _ hi

/-- The index is read off its place. -/
theorem unravel_offset {dims index : List ℕ} (h : InBounds dims index) :
    unravel dims (offset dims index) = index := by
  induction h with
  | nil => rfl
  | @cons i d index dims hi hrest ih =>
    have hlt := InBounds.offset_lt hrest
    have hpos : 0 < dims.prod := by omega
    rw [offset, unravel, Nat.add_comm, Nat.add_mul_div_right _ _ hpos, Nat.div_eq_of_lt hlt,
      Nat.zero_add, Nat.add_mul_mod_self_right, Nat.mod_eq_of_lt hlt, ih]

theorem inBounds_unravel {dims : List ℕ} {n : ℕ} (h : n < dims.prod) :
    InBounds dims (unravel dims n) := by
  induction dims generalizing n with
  | nil => simp [unravel]
  | cons d dims ih =>
    rw [List.prod_cons] at h
    have hpos : 0 < dims.prod := Nat.pos_of_ne_zero fun hzero => by simp [hzero] at h
    rw [unravel, inBounds_cons]
    exact ⟨(Nat.div_lt_iff_lt_mul hpos).mpr h, ih (Nat.mod_lt _ hpos)⟩

/-- The place is read off the index. -/
theorem offset_unravel {dims : List ℕ} {n : ℕ} (h : n < dims.prod) :
    offset dims (unravel dims n) = n := by
  induction dims generalizing n with
  | nil =>
    rw [List.prod_nil] at h
    rw [Nat.lt_one_iff.mp h]
    rfl
  | cons d dims ih =>
    rw [List.prod_cons] at h
    have hpos : 0 < dims.prod := Nat.pos_of_ne_zero fun hzero => by simp [hzero] at h
    rw [unravel, offset, ih (Nat.mod_lt _ hpos)]
    exact Nat.div_add_mod' n dims.prod

/-! ### Tensors -/

/-- A dense tensor: the entries of a shape in row-major order. -/
structure Tensor (R : Type) where
  dims : List ℕ
  data : List R
  length_data : data.length = dims.prod

namespace Tensor

variable {R : Type}

/-- The tensor with the given entry at every place of the row-major order. -/
def build (dims : List ℕ) (f : ℕ → R) : Tensor R where
  dims := dims
  data := (List.range dims.prod).map f
  length_data := by simp

/-- The tensor with the given entry at every index. -/
def ofFn (dims : List ℕ) (f : List ℕ → R) : Tensor R :=
  build dims fun n => f (unravel dims n)

@[simp] theorem dims_build (dims : List ℕ) (f : ℕ → R) : (build dims f).dims = dims := rfl

@[simp] theorem dims_ofFn (dims : List ℕ) (f : List ℕ → R) : (ofFn dims f).dims = dims := rfl

variable [Zero R]

/-- The entry at a place of the row-major order. -/
def entry (t : Tensor R) (n : ℕ) : R :=
  t.data.getD n 0

/-- The entry at an index. -/
def get (t : Tensor R) (index : List ℕ) : R :=
  t.entry (offset t.dims index)

theorem entry_build {dims : List ℕ} {f : ℕ → R} {n : ℕ} (h : n < dims.prod) :
    (build dims f).entry n = f n := by
  simp [entry, build, h]

theorem get_ofFn {dims index : List ℕ} {f : List ℕ → R} (h : InBounds dims index) :
    (ofFn dims f).get index = f index := by
  rw [get, dims_ofFn, ofFn, entry_build h.offset_lt, unravel_offset h]

/-- **A tensor is its shape and its entries.** -/
theorem ext_get {s t : Tensor R} (hdims : s.dims = t.dims)
    (hget : ∀ index, InBounds t.dims index → s.get index = t.get index) : s = t := by
  have hdata : s.data = t.data := by
    refine List.ext_getElem (by rw [s.length_data, t.length_data, hdims]) fun n hs ht => ?_
    have hn : n < t.dims.prod := by rw [← t.length_data]; exact ht
    have h := hget (unravel t.dims n) (inBounds_unravel hn)
    rw [get, get, hdims, offset_unravel hn] at h
    simpa [entry, hs, ht] using h
  cases s
  cases t
  cases hdims
  cases hdata
  rfl

theorem ofFn_congr {dims : List ℕ} {f g : List ℕ → R}
    (h : ∀ index, InBounds dims index → f index = g index) : ofFn dims f = ofFn dims g := by
  refine ext_get rfl fun index hindex => ?_
  have hindex : InBounds dims index := hindex
  rw [get_ofFn hindex, get_ofFn hindex, h index hindex]

/-! ### Operations -/

/-- The same entries in another shape. -/
def reshape (t : Tensor R) (dims : List ℕ) : Except String (Tensor R) :=
  if h : dims.prod = t.dims.prod then .ok ⟨dims, t.data, h ▸ t.length_data⟩
  else .error "shape mismatch in reshape"

/-- The coordinates of axes one and two, exchanged. -/
def swap12 : List ℕ → List ℕ
  | i :: j :: k :: rest => i :: k :: j :: rest
  | index => index

/-- The tensor with axes one and two exchanged. -/
def transpose (t : Tensor R) : Except String (Tensor R) :=
  if 3 ≤ t.dims.length then .ok (ofFn (swap12 t.dims) fun index => t.get (swap12 index))
  else .error "dim out of range in transpose"

/-- The part of an axis that starts at a coordinate and has the given length. -/
def narrow (t : Tensor R) (axis start len : ℕ) : Except String (Tensor R) :=
  if t.dims.length ≤ axis ∨ t.dims.getD axis 0 < start + len then
    .error "narrow invalid args"
  else .ok (ofFn (t.dims.set axis len) fun index => t.get (index.modify axis (start + ·)))

/-- The entry of a concatenation: the parts are passed over until the coordinate is within one. -/
def catEntry (axis : ℕ) : List (Tensor R) → List ℕ → R
  | [], _ => 0
  | part :: parts, index =>
    let size := part.dims.getD axis 0
    if index.getD axis 0 < size then part.get index
    else catEntry axis parts (index.modify axis (· - size))

/-- The concatenation of some parts along an axis. -/
def cat (parts : List (Tensor R)) (axis : ℕ) : Except String (Tensor R) :=
  match parts with
  | [] => .error "cat requires at least one tensor"
  | first :: _ =>
    if first.dims.length ≤ axis ∨
        ¬ (parts.all fun part => part.dims.set axis 0 == first.dims.set axis 0) then
      .error "shape mismatch in cat"
    else
      .ok (ofFn (first.dims.set axis (parts.map fun part => part.dims.getD axis 0).sum)
        (catEntry axis parts))

/-- The axes of length one repeated along longer ones. -/
def broadcastAs (t : Tensor R) (dims : List ℕ) : Except String (Tensor R) :=
  if t.dims.length = dims.length ∧ (t.dims.zip dims).all fun (d, d') => d == 1 || d == d' then
    .ok (ofFn dims fun index =>
      t.get ((t.dims.zip index).map fun (d, i) => if d = 1 then 0 else i))
  else .error "cannot broadcast"

/-- The rows with the given numbers. -/
def indexSelect (t : Tensor R) (rows : List ℕ) : Except String (Tensor R) :=
  match t.dims with
  | [] => .error "index-select requires an axis"
  | count :: rest =>
    if rows.any fun row => decide (count ≤ row) then .error "index-select out of bounds"
    else
      .ok (ofFn (rows.length :: rest) fun
        | i :: index => t.get (rows.getD i 0 :: index)
        | [] => 0)

/-- Rows of zeros before and after the rows of a tensor. -/
def padWithZeros (t : Tensor R) (left right : ℕ) : Except String (Tensor R) :=
  match t.dims with
  | [] => .error "pad-with-zeros requires an axis"
  | count :: rest =>
    .ok (ofFn ((left + count + right) :: rest) fun
      | i :: index => if i < left ∨ left + count ≤ i then 0 else t.get ((i - left) :: index)
      | [] => 0)

/-- Zeros in the given shape. -/
def zeros (dims : List ℕ) : Tensor R :=
  ofFn dims fun _ => 0

/-- The products of the matrices of two batches. -/
def matmul [Mul R] [Add R] (s t : Tensor R) : Except String (Tensor R) :=
  match s.dims, t.dims with
  | [batch, rows, inner], [batch', inner', columns] =>
    if batch = batch' ∧ inner = inner' then
      .ok (ofFn [batch, rows, columns] fun
        | [b, i, j] => ((List.range inner).map fun k => s.get [b, i, k] * t.get [b, k, j]).sum
        | _ => 0)
    else .error "shape mismatch in matmul"
  | _, _ => .error "shape mismatch in matmul"

/-- Every entry multiplied by a number. -/
def scale [Mul R] (t : Tensor R) (factor : R) : Tensor R :=
  ofFn t.dims fun index => t.get index * factor

/-- The lengths of the axes of a tensor with three of them. -/
def dims3 (t : Tensor R) : Except String (ℕ × ℕ × ℕ) :=
  match t.dims with
  | [a, b, c] => .ok (a, b, c)
  | _ => .error "unexpected rank"

omit [Zero R] in
theorem dims_of_dims3 {t : Tensor R} {a b c : ℕ} (h : t.dims3 = .ok (a, b, c)) :
    t.dims = [a, b, c] := by
  rw [dims3] at h
  split at h
  · rename_i hdims
    rw [hdims]
    cases h
    rfl
  · cases h

/-- The lengths of the axes of a tensor with four of them. -/
def dims4 (t : Tensor R) : Except String (ℕ × ℕ × ℕ × ℕ) :=
  match t.dims with
  | [a, b, c, d] => .ok (a, b, c, d)
  | _ => .error "unexpected rank"

/-- The length of an axis. -/
def dim (t : Tensor R) (axis : ℕ) : Except String ℕ :=
  match t.dims[axis]? with
  | some d => .ok d
  | none => .error "dim out of range"

/-! ### Reshapes -/

/-- A reshape is known by its entries: each is read at the index with the same place. -/
theorem reshape_eq {t : Tensor R} {dims : List ℕ} {f : List ℕ → R}
    (hprod : dims.prod = t.dims.prod)
    (hf : ∀ index, InBounds dims index →
      ∃ index', offset t.dims index' = offset dims index ∧ t.get index' = f index) :
    t.reshape dims = .ok (ofFn dims f) := by
  rw [reshape, dif_pos hprod]
  refine congrArg Except.ok (ext_get rfl fun index hindex => ?_)
  have hindex : InBounds dims index := hindex
  obtain ⟨index', hoffset, hget⟩ := hf index hindex
  rw [get_ofFn hindex, ← hget, get, get, hoffset]
  rfl

/-- The tensor with three axes and the given entries. -/
def ofFn3 (a b c : ℕ) (f : ℕ → ℕ → ℕ → R) : Tensor R :=
  ofFn [a, b, c] fun
    | [i, j, k] => f i j k
    | _ => 0

/-- The tensor with four axes and the given entries. -/
def ofFn4 (a b c d : ℕ) (f : ℕ → ℕ → ℕ → ℕ → R) : Tensor R :=
  ofFn [a, b, c, d] fun
    | [i, j, k, l] => f i j k l
    | _ => 0

section Axes

variable {a b c d : ℕ}

theorem inBounds_three {index : List ℕ} :
    InBounds [a, b, c] index ↔ ∃ i j k, index = [i, j, k] ∧ i < a ∧ j < b ∧ k < c := by
  constructor
  · intro h
    rcases h with _ | ⟨hi, _ | ⟨hj, _ | ⟨hk, _ | _⟩⟩⟩
    exact ⟨_, _, _, rfl, hi, hj, hk⟩
  · rintro ⟨i, j, k, rfl, hi, hj, hk⟩
    simp [hi, hj, hk]

theorem inBounds_four {index : List ℕ} :
    InBounds [a, b, c, d] index ↔
      ∃ i j k l, index = [i, j, k, l] ∧ i < a ∧ j < b ∧ k < c ∧ l < d := by
  constructor
  · intro h
    rcases h with _ | ⟨hi, _ | ⟨hj, _ | ⟨hk, _ | ⟨hl, _ | _⟩⟩⟩⟩
    exact ⟨_, _, _, _, rfl, hi, hj, hk, hl⟩
  · rintro ⟨i, j, k, l, rfl, hi, hj, hk, hl⟩
    simp [hi, hj, hk, hl]

@[simp] theorem dims_ofFn3 (f : ℕ → ℕ → ℕ → R) : (ofFn3 a b c f).dims = [a, b, c] := rfl

@[simp] theorem dims_ofFn4 (f : ℕ → ℕ → ℕ → ℕ → R) : (ofFn4 a b c d f).dims = [a, b, c, d] := rfl

theorem get_ofFn3 {f : ℕ → ℕ → ℕ → R} {i j k : ℕ} (hi : i < a) (hj : j < b) (hk : k < c) :
    (ofFn3 a b c f).get [i, j, k] = f i j k :=
  get_ofFn (inBounds_three.mpr ⟨i, j, k, rfl, hi, hj, hk⟩)

theorem get_ofFn4 {f : ℕ → ℕ → ℕ → ℕ → R} {i j k l : ℕ} (hi : i < a) (hj : j < b) (hk : k < c)
    (hl : l < d) : (ofFn4 a b c d f).get [i, j, k, l] = f i j k l :=
  get_ofFn (inBounds_four.mpr ⟨i, j, k, l, rfl, hi, hj, hk, hl⟩)

/-- The place of an entry of a tensor with three axes. -/
theorem entry_ofFn3 {f : ℕ → ℕ → ℕ → R} {i j k : ℕ} (hi : i < a) (hj : j < b) (hk : k < c) :
    (ofFn3 a b c f).entry ((i * b + j) * c + k) = f i j k := by
  have hget := get_ofFn3 (f := f) hi hj hk
  have hplace : offset [a, b, c] [i, j, k] = (i * b + j) * c + k := by
    simp only [offset, List.prod_cons, List.prod_nil, Nat.mul_one, Nat.add_zero]
    ring
  rw [get, dims_ofFn3, hplace] at hget
  exact hget

/-- The place of an entry of a tensor with four axes. -/
theorem entry_ofFn4 {f : ℕ → ℕ → ℕ → ℕ → R} {i j k l : ℕ} (hi : i < a) (hj : j < b) (hk : k < c)
    (hl : l < d) : (ofFn4 a b c d f).entry (((i * b + j) * c + k) * d + l) = f i j k l := by
  have hget := get_ofFn4 (f := f) hi hj hk hl
  have hplace : offset [a, b, c, d] [i, j, k, l] = ((i * b + j) * c + k) * d + l := by
    simp only [offset, List.prod_cons, List.prod_nil, Nat.mul_one, Nat.add_zero]
    ring
  rw [get, dims_ofFn4, hplace] at hget
  exact hget

/-- Every place of a shape with four axes is that of an index. -/
theorem exists_place4 {n : ℕ} (hn : n < [a, b, c, d].prod) :
    ∃ i j k l, i < a ∧ j < b ∧ k < c ∧ l < d ∧ n = ((i * b + j) * c + k) * d + l := by
  obtain ⟨i, j, k, l, hindex, hi, hj, hk, hl⟩ := inBounds_four.mp (inBounds_unravel hn)
  refine ⟨i, j, k, l, hi, hj, hk, hl, ?_⟩
  have hplace := offset_unravel hn
  rw [hindex] at hplace
  rw [← hplace]
  simp only [offset, List.prod_cons, List.prod_nil, Nat.mul_one, Nat.add_zero]
  ring

/-- A tensor with four axes, given by its row-major entries. -/
theorem build_eq_ofFn4 {entry : ℕ → R} {f : ℕ → ℕ → ℕ → ℕ → R}
    (h : ∀ i j k l, i < a → j < b → k < c → l < d →
      entry (((i * b + j) * c + k) * d + l) = f i j k l) :
    build [a, b, c, d] entry = ofFn4 a b c d f := by
  refine ext_get rfl fun index hindex => ?_
  obtain ⟨i, j, k, l, rfl, hi, hj, hk, hl⟩ := inBounds_four.mp hindex
  have hplace : offset [a, b, c, d] [i, j, k, l] = ((i * b + j) * c + k) * d + l := by
    simp only [offset, List.prod_cons, List.prod_nil, Nat.mul_one, Nat.add_zero]
    ring
  have hlt := InBounds.offset_lt (inBounds_four.mpr ⟨i, j, k, l, rfl, hi, hj, hk, hl⟩)
  rw [get_ofFn4 hi hj hk hl, get, dims_build, entry_build hlt, hplace, h i j k l hi hj hk hl]

/-- A tensor with three axes, given by its row-major entries. -/
theorem build_eq_ofFn3 {entry : ℕ → R} {f : ℕ → ℕ → ℕ → R}
    (h : ∀ i j k, i < a → j < b → k < c → entry ((i * b + j) * c + k) = f i j k) :
    build [a, b, c] entry = ofFn3 a b c f := by
  refine ext_get rfl fun index hindex => ?_
  obtain ⟨i, j, k, rfl, hi, hj, hk⟩ := inBounds_three.mp hindex
  have hplace : offset [a, b, c] [i, j, k] = (i * b + j) * c + k := by
    simp only [offset, List.prod_cons, List.prod_nil, Nat.mul_one, Nat.add_zero]
    ring
  have hlt := InBounds.offset_lt (inBounds_three.mpr ⟨i, j, k, rfl, hi, hj, hk⟩)
  rw [get_ofFn3 hi hj hk, get, dims_build, entry_build hlt, hplace, h i j k hi hj hk]

theorem ofFn3_congr {f g : ℕ → ℕ → ℕ → R}
    (h : ∀ i j k, i < a → j < b → k < c → f i j k = g i j k) : ofFn3 a b c f = ofFn3 a b c g := by
  refine ofFn_congr fun index hindex => ?_
  obtain ⟨i, j, k, rfl, hi, hj, hk⟩ := inBounds_three.mp hindex
  exact h i j k hi hj hk

theorem ofFn4_congr {f g : ℕ → ℕ → ℕ → ℕ → R}
    (h : ∀ i j k l, i < a → j < b → k < c → l < d → f i j k l = g i j k l) :
    ofFn4 a b c d f = ofFn4 a b c d g := by
  refine ofFn_congr fun index hindex => ?_
  obtain ⟨i, j, k, l, rfl, hi, hj, hk, hl⟩ := inBounds_four.mp hindex
  exact h i j k l hi hj hk hl

theorem eq_ofFn3 {t : Tensor R} (h : t.dims = [a, b, c]) :
    t = ofFn3 a b c fun i j k => t.get [i, j, k] := by
  refine ext_get h fun index hindex => ?_
  obtain ⟨i, j, k, rfl, hi, hj, hk⟩ := inBounds_three.mp hindex
  rw [get_ofFn3 hi hj hk]

theorem eq_ofFn4 {t : Tensor R} (h : t.dims = [a, b, c, d]) :
    t = ofFn4 a b c d fun i j k l => t.get [i, j, k, l] := by
  refine ext_get h fun index hindex => ?_
  obtain ⟨i, j, k, l, rfl, hi, hj, hk, hl⟩ := inBounds_four.mp hindex
  rw [get_ofFn4 hi hj hk hl]

/-- The first two axes merged into one. -/
theorem reshape_merge (f : ℕ → ℕ → ℕ → ℕ → R) :
    (ofFn4 a b c d f).reshape [a * b, c, d] =
      .ok (ofFn3 (a * b) c d fun n k l => f (n / b) (n % b) k l) := by
  refine reshape_eq (by simp [mul_assoc]) fun index hindex => ?_
  obtain ⟨n, k, l, rfl, hn, hk, hl⟩ := inBounds_three.mp hindex
  have hb : 0 < b := Nat.pos_of_ne_zero fun hzero => by simp [hzero] at hn
  refine ⟨[n / b, n % b, k, l], ?_, get_ofFn4 ((Nat.div_lt_iff_lt_mul hb).mpr hn)
    (Nat.mod_lt _ hb) hk hl⟩
  have hdiv := Nat.div_add_mod' n b
  simp only [dims_ofFn4, offset, List.prod_cons, List.prod_nil, Nat.mul_one]
  calc n / b * (b * (c * d)) + (n % b * (c * d) + (k * d + (l + 0)))
      = (n / b * b + n % b) * (c * d) + (k * d + (l + 0)) := by ring
    _ = n * (c * d) + (k * d + (l + 0)) := by rw [hdiv]

/-- The first axis split into two. -/
theorem reshape_split (f : ℕ → ℕ → ℕ → R) :
    (ofFn3 (a * b) c d f).reshape [a, b, c, d] =
      .ok (ofFn4 a b c d fun i j k l => f (i * b + j) k l) := by
  refine reshape_eq (by simp [mul_assoc]) fun index hindex => ?_
  obtain ⟨i, j, k, l, rfl, hi, hj, hk, hl⟩ := inBounds_four.mp hindex
  have hrow : i * b + j < a * b := by
    calc i * b + j < (i + 1) * b := by rw [Nat.succ_mul]; omega
      _ ≤ a * b := Nat.mul_le_mul_right _ hi
  refine ⟨[i * b + j, k, l], ?_, get_ofFn3 hrow hk hl⟩
  simp only [dims_ofFn3, offset, List.prod_cons, List.prod_nil, Nat.mul_one]
  ring

/-- A new first axis of length one. -/
theorem reshape_unsqueeze (f : ℕ → ℕ → ℕ → R) :
    (ofFn3 a b c f).reshape [1, a, b, c] = .ok (ofFn4 1 a b c fun _ i j k => f i j k) := by
  have h := reshape_split (R := R) (a := 1) (b := a) (c := b) (d := c) f
  rw [Nat.one_mul] at h
  rw [h]
  refine congrArg Except.ok (ofFn4_congr fun i j k l hi _ _ _ => ?_)
  rw [Nat.lt_one_iff.mp hi, Nat.zero_mul, Nat.zero_add]

/-- A first axis of length one dropped. -/
theorem reshape_squeeze (f : ℕ → ℕ → ℕ → ℕ → R) :
    (ofFn4 1 a b c f).reshape [a, b, c] = .ok (ofFn3 a b c fun i j k => f 0 i j k) := by
  have h := reshape_merge (R := R) (a := 1) (b := a) (c := b) (d := c) f
  rw [Nat.one_mul] at h
  rw [h]
  refine congrArg Except.ok (ofFn3_congr fun i j k hi _ _ => ?_)
  rw [Nat.div_eq_of_lt hi, Nat.mod_eq_of_lt hi]

/-- The members of an axis repeated: a new axis of length one is broadcast and merged. -/
theorem reshape_expand (f : ℕ → ℕ → ℕ → ℕ → R) (g : ℕ) :
    ((ofFn4 a b c d f).reshape [a, b, c, 1, d] >>= fun t =>
      t.broadcastAs [a, b, c, g, d] >>= fun t => t.reshape [a, b, c * g, d]) =
      .ok (ofFn4 a b (c * g) d fun i j k l => f i j (k / g) l) := by
  have hunsqueeze : (ofFn4 a b c d f).reshape [a, b, c, 1, d] =
      .ok (ofFn [a, b, c, 1, d] fun
        | [i, j, k, _, l] => f i j k l
        | _ => 0) := by
    refine reshape_eq (by simp) fun index hindex => ?_
    rcases hindex with _ | ⟨hi, _ | ⟨hj, _ | ⟨hk, _ | ⟨hone, _ | ⟨hl, _ | _⟩⟩⟩⟩⟩
    refine ⟨[_, _, _, _], ?_, get_ofFn4 hi hj hk hl⟩
    simp [offset, Nat.lt_one_iff.mp hone]
  have hbroadcast : (ofFn [a, b, c, 1, d] fun
        | [i, j, k, _, l] => f i j k l
        | _ => 0 : Tensor R).broadcastAs [a, b, c, g, d] =
      .ok (ofFn [a, b, c, g, d] fun
        | [i, j, k, _, l] => f i j k l
        | _ => 0) := by
    rw [broadcastAs, if_pos (by simp)]
    refine congrArg Except.ok (ofFn_congr fun index hindex => ?_)
    rcases hindex with _ | ⟨hi, _ | ⟨hj, _ | ⟨hk, _ | ⟨hm, _ | ⟨hl, _ | _⟩⟩⟩⟩⟩
    have hread : ∀ {i n : ℕ}, i < n → (if n = 1 then 0 else i) = i := by
      intro i n h
      split
      · omega
      · rfl
    simp only [dims_ofFn, List.zip_cons_cons, List.map_cons, List.zip_nil_left, List.map_nil,
      hread hi, hread hj, hread hk, hread hl, if_true]
    rw [get_ofFn]
    simp [hi, hj, hk, hl]
  rw [hunsqueeze]
  show (Tensor.broadcastAs _ _ >>= fun t : Tensor R => t.reshape [a, b, c * g, d]) = _
  rw [hbroadcast]
  show Tensor.reshape _ _ = _
  refine reshape_eq (by simp [mul_assoc]) fun index hindex => ?_
  obtain ⟨i, j, k, l, rfl, hi, hj, hk, hl⟩ := inBounds_four.mp hindex
  have hg : 0 < g := Nat.pos_of_ne_zero fun hzero => by simp [hzero] at hk
  refine ⟨[i, j, k / g, k % g, l], ?_, ?_⟩
  · have hdiv := Nat.div_add_mod' k g
    simp only [dims_ofFn, offset, List.prod_cons, List.prod_nil, Nat.mul_one]
    calc i * (b * (c * (g * d))) + (j * (c * (g * d)) + (k / g * (g * d) + (k % g * d + (l + 0))))
        = i * (b * (c * g * d)) + (j * (c * g * d) + ((k / g * g + k % g) * d + (l + 0))) := by ring
      _ = i * (b * (c * g * d)) + (j * (c * g * d) + (k * d + (l + 0))) := by rw [hdiv]
  · rw [get_ofFn]
    simp [hi, hj, hl, (Nat.div_lt_iff_lt_mul hg).mpr hk, Nat.mod_lt _ hg]

/-! ### Entries of the operations -/

theorem transpose_ofFn3 (f : ℕ → ℕ → ℕ → R) :
    (ofFn3 a b c f).transpose = .ok (ofFn3 a c b fun i j k => f i k j) := by
  rw [transpose, if_pos (by simp)]
  refine congrArg Except.ok (ofFn_congr fun index hindex => ?_)
  obtain ⟨i, j, k, rfl, hi, hj, hk⟩ := inBounds_three.mp hindex
  exact get_ofFn3 hi hk hj

theorem transpose_ofFn4 (f : ℕ → ℕ → ℕ → ℕ → R) :
    (ofFn4 a b c d f).transpose = .ok (ofFn4 a c b d fun i j k l => f i k j l) := by
  rw [transpose, if_pos (by simp)]
  refine congrArg Except.ok (ofFn_congr fun index hindex => ?_)
  obtain ⟨i, j, k, l, rfl, hi, hj, hk, hl⟩ := inBounds_four.mp hindex
  exact get_ofFn4 hi hk hj hl

theorem narrow0_ofFn3 {f : ℕ → ℕ → ℕ → R} {start len : ℕ} (h : start + len ≤ a) :
    (ofFn3 a b c f).narrow 0 start len = .ok (ofFn3 len b c fun i j k => f (start + i) j k) := by
  rw [narrow, if_neg (by simp [h])]
  refine congrArg Except.ok (ofFn_congr fun index hindex => ?_)
  obtain ⟨i, j, k, rfl, hi, hj, hk⟩ := inBounds_three.mp hindex
  exact get_ofFn3 (show start + i < a by omega) hj hk

theorem narrow1_ofFn3 {f : ℕ → ℕ → ℕ → R} {start len : ℕ} (h : start + len ≤ b) :
    (ofFn3 a b c f).narrow 1 start len = .ok (ofFn3 a len c fun i j k => f i (start + j) k) := by
  rw [narrow, if_neg (by simp [h])]
  refine congrArg Except.ok (ofFn_congr fun index hindex => ?_)
  obtain ⟨i, j, k, rfl, hi, hj, hk⟩ := inBounds_three.mp hindex
  exact get_ofFn3 hi (show start + j < b by omega) hk

theorem zeros3 : zeros (R := R) [a, b, c] = ofFn3 a b c fun _ _ _ => 0 := by
  refine ofFn_congr fun index hindex => ?_
  obtain ⟨i, j, k, rfl, -⟩ := inBounds_three.mp hindex
  rfl

theorem scale_ofFn3 [Mul R] (f : ℕ → ℕ → ℕ → R) (factor : R) :
    (ofFn3 a b c f).scale factor = ofFn3 a b c fun i j k => f i j k * factor := by
  refine ofFn_congr fun index hindex => ?_
  obtain ⟨i, j, k, rfl, hi, hj, hk⟩ := inBounds_three.mp hindex
  rw [get_ofFn3 hi hj hk]

theorem matmul_ofFn3 [Mul R] [Add R] (f g : ℕ → ℕ → ℕ → R) :
    (ofFn3 a b c f).matmul (ofFn3 a c d g) =
      .ok (ofFn3 a b d fun i j k => ((List.range c).map fun m => f i j m * g i m k).sum) := by
  simp only [matmul, dims_ofFn3, and_self, if_true]
  refine congrArg Except.ok (ofFn_congr fun index hindex => ?_)
  obtain ⟨i, j, k, rfl, hi, hj, hk⟩ := inBounds_three.mp hindex
  refine congrArg List.sum (List.map_congr_left fun m hm => ?_)
  have hm := List.mem_range.mp hm
  rw [get_ofFn3 hi hj hm, get_ofFn3 hi hm hk]

end Axes

/-! ### Consecutive pieces -/

end Tensor

/-- Consecutive pieces of the given lengths, each with its start. -/
def tiles : (start : ℕ) → (counts : List ℕ) → List (ℕ × ℕ)
  | _, [] => []
  | start, count :: counts => (start, count) :: tiles (start + count) counts

theorem map_snd_tiles (start : ℕ) (counts : List ℕ) : (tiles start counts).map Prod.snd = counts := by
  induction counts generalizing start with
  | nil => rfl
  | cons count counts ih => rw [tiles, List.map_cons, ih]

/-- The pieces of a range that is passed over in steps: each has the length of a step, but for the
last one, which ends with the range. -/
theorem range'_tiles (total : ℕ) {step : ℕ} (hstep : 0 < step) :
    ∀ pieces start : ℕ, pieces = (total - start + step - 1) / step →
      ∃ counts : List ℕ, counts.sum = total - start ∧ counts.length = pieces ∧
        (List.range' start pieces step).map (fun s => (s, min (total - s) step)) =
          tiles start counts := by
  intro pieces
  induction pieces with
  | zero =>
    intro start hpieces
    have hlt : total - start + step - 1 < step := (Nat.div_eq_zero_iff_lt hstep).mp hpieces.symm
    exact ⟨[], by simp; omega, rfl, rfl⟩
  | succ pieces ih =>
    intro start hpieces
    have hlarge : step ≤ total - start + step - 1 := by
      by_contra hsmall
      rw [Nat.div_eq_of_lt (by omega)] at hpieces
      omega
    have hrest : pieces = (total - (start + step) + step - 1) / step := by
      by_cases hlast : total - start ≤ step
      · have hone : (total - start + step - 1) / step = 1 :=
          Nat.div_eq_of_lt_le (by omega) (by omega)
        have hzero : total - (start + step) + step - 1 = step - 1 := by omega
        rw [hzero, Nat.div_eq_of_lt (by omega)]
        omega
      · have heq : total - start + step - 1 = (total - (start + step) + step - 1) + step := by omega
        rw [heq, Nat.add_div_right _ hstep] at hpieces
        omega
    obtain ⟨counts, hsum, hlength, hmap⟩ := ih (start + step) hrest
    by_cases hlast : total - start ≤ step
    · have hnil : counts.sum = 0 := by omega
      have hzero : pieces = 0 := by
        have hzero : total - (start + step) + step - 1 = step - 1 := by omega
        rw [hzero, Nat.div_eq_of_lt (by omega)] at hrest
        exact hrest
      subst hzero
      obtain rfl := List.length_eq_zero_iff.mp hlength
      exact ⟨[total - start], by simp, rfl, by simp [tiles, hlast]⟩
    · refine ⟨step :: counts, by rw [List.sum_cons, hsum]; omega, by rw [List.length_cons, hlength], ?_⟩
      rw [List.range'_succ, List.map_cons, hmap, tiles, Nat.min_eq_right (by omega)]

namespace Tensor

variable {R : Type} [Zero R]

/-- The entries of consecutive pieces put together. -/
theorem catEntry_tiles {dims : List ℕ} {axis : ℕ} {f : List ℕ → R} (haxis : axis < dims.length) :
    ∀ (counts : List ℕ) (start : ℕ) (index : List ℕ), InBounds (dims.set axis counts.sum) index →
      catEntry axis ((tiles start counts).map fun tile =>
        ofFn (dims.set axis tile.2) fun index => f (index.modify axis (tile.1 + ·))) index =
      f (index.modify axis (start + ·)) := by
  intro counts
  induction counts with
  | nil =>
    intro start index hindex
    have hlength : index.length = dims.length := by simpa using List.Forall₂.length_eq hindex
    have hlt := (List.forall₂_iff_get.mp hindex).2 axis (by omega) (by simpa using haxis)
    simp at hlt
  | cons count counts ih =>
    intro start index hindex
    have hlength : index.length = dims.length := by simpa using List.Forall₂.length_eq hindex
    have hget := (List.forall₂_iff_get.mp hindex).2
    have hinside : axis < index.length := by omega
    have hcoord : index.getD axis 0 = index[axis] := by
      rw [List.getD_eq_getElem?_getD, List.getElem?_eq_getElem, Option.getD_some]
    have hlt := hget axis (by omega) (by simpa using haxis)
    simp only [List.get_eq_getElem, List.getElem_set_self, List.sum_cons] at hlt
    have hbounds : ∀ {index' : List ℕ} {size : ℕ}, index'.length = index.length →
        (∀ n (h : n < index.length) (h' : n < index'.length), n ≠ axis → index'[n] = index[n]) →
        (∀ h : axis < index'.length, index'[axis] < size) → InBounds (dims.set axis size) index' := by
      intro index' size hlength' hother hsize
      refine List.forall₂_iff_get.mpr ⟨by simp; omega, fun n hn hdims => ?_⟩
      simp only [List.get_eq_getElem, List.getElem_set]
      have hother' := hget n (by omega) (by simpa using hdims)
      simp only [List.get_eq_getElem, List.getElem_set] at hother'
      split
      · rename_i heq
        subst heq
        exact hsize hn
      · rename_i hne
        rw [if_neg hne] at hother'
        rw [hother n (by omega) hn (Ne.symm hne)]
        exact hother'
    rw [tiles, List.map_cons, catEntry]
    have hsize : (ofFn (dims.set axis count) fun index =>
        f (index.modify axis (start + ·)) : Tensor R).dims.getD axis 0 = count := by
      simp [haxis]
    simp only [hsize, hcoord]
    split
    · rename_i hfirst
      rw [get_ofFn (hbounds rfl (fun _ _ _ _ => rfl) fun _ => hfirst)]
    · rename_i hlater
      rw [ih (start + count) _ ?_]
      · refine congrArg f (List.ext_getElem (by simp) fun n hn hn' => ?_)
        simp only [List.getElem_modify]
        split
        · rename_i heq
          subst heq
          omega
        · rfl
      · refine hbounds (by simp) (fun n hn hn' hne => ?_) fun h => ?_
        · rw [List.getElem_modify, if_neg (Ne.symm hne)]
        · rw [List.getElem_modify, if_pos rfl]
          omega

/-- **The concatenation of the consecutive pieces of a tensor is the tensor.** -/
theorem cat_tiles (dims : List ℕ) (axis : ℕ) (counts : List ℕ) (f : List ℕ → R)
    (haxis : axis < dims.length) (hcounts : counts ≠ []) :
    cat ((tiles 0 counts).map fun tile =>
        ofFn (dims.set axis tile.2) fun index => f (index.modify axis (tile.1 + ·))) axis =
      .ok (ofFn (dims.set axis counts.sum) f) := by
  obtain ⟨count, rest, rfl⟩ := List.exists_cons_of_ne_nil hcounts
  have hentry := catEntry_tiles (f := f) haxis (count :: rest) 0
  have hsizes : (((tiles 0 (count :: rest)).map fun tile : ℕ × ℕ =>
      (ofFn (dims.set axis tile.2) fun index => f (index.modify axis (tile.1 + ·)) : Tensor R)).map
        fun part => part.dims.getD axis 0) = count :: rest := by
    rw [List.map_map]
    refine Eq.trans (List.map_congr_left fun tile _ => ?_) (map_snd_tiles 0 (count :: rest))
    simp [haxis]
  rw [tiles, List.map_cons] at hentry hsizes ⊢
  rw [cat, if_neg, hsizes]
  · refine congrArg Except.ok ?_
    simp only [dims_ofFn, List.set_set]
    refine ofFn_congr fun index hindex => ?_
    have hid : index.modify axis (0 + ·) = index :=
      List.ext_getElem (by simp) fun n _ _ => by simp [List.getElem_modify]
    rw [hentry index hindex, hid]
  · simp [haxis]

theorem cat0_ofFn3 {b c : ℕ} (counts : List ℕ) (f : ℕ → ℕ → ℕ → R) (hcounts : counts ≠ []) :
    cat ((tiles 0 counts).map fun tile => ofFn3 tile.2 b c fun i j k => f (tile.1 + i) j k) 0 =
      .ok (ofFn3 counts.sum b c f) := by
  refine Eq.trans (congrArg (cat · 0) (List.map_congr_left fun tile _ => ?_))
    (cat_tiles [0, b, c] 0 counts _ (by simp) hcounts)
  refine ofFn_congr fun index hindex => ?_
  obtain ⟨i, j, k, rfl, -⟩ := inBounds_three.mp hindex
  rfl

theorem cat1_ofFn3 {a c : ℕ} (counts : List ℕ) (f : ℕ → ℕ → ℕ → R) (hcounts : counts ≠ []) :
    cat ((tiles 0 counts).map fun tile => ofFn3 a tile.2 c fun i j k => f i (tile.1 + j) k) 1 =
      .ok (ofFn3 a counts.sum c f) := by
  refine Eq.trans (congrArg (cat · 1) (List.map_congr_left fun tile _ => ?_))
    (cat_tiles [a, 0, c] 1 counts _ (by simp) hcounts)
  refine ofFn_congr fun index hindex => ?_
  obtain ⟨i, j, k, rfl, -⟩ := inBounds_three.mp hindex
  rfl

end Tensor

end VllmOxide
