import Mathlib.Algebra.GroupWithZero.Nat
import Mathlib.Data.List.Basic
import Mathlib.Data.Char
import Mathlib.Data.List.Lex
import VllmOxide.Library.Outcome

/-!
# Logical artifact paths

The paths of a release are relative: components with slashes between them, none of them empty, a dot,
two dots or `.git`. The host and the tool that builds a release have a check each, and they agree. A
path whose components start with those of another path is greater than that path, because the strings
start alike and it is the longer one.

## Main definitions

* `components`, `joinComponents`: a path and its components.
* `safePath`, `logicalPath`: the two checks.
* `ComponentPrefix`: a path that would have to be a directory of another one.
* `joinPath`: a path below a directory, as the file system resolves it.

## Main results

* `safePath_iff_logicalPath`: the checks agree.
* `ComponentPrefix.lt`: the order of the paths puts a directory in front of what it contains.
* `joinPath_eq`: a safe path stays below the directory.
-/

namespace VllmOxide.Release

/-- The characters of a string. -/
abbrev Text := List Char

instance : LawfulBEq Text :=
  inferInstance

/-- `split('/')`. -/
def components (value : Text) : List Text :=
  value.splitOn '/'

/-- Components with slashes between them. -/
def joinComponents (parts : List Text) : Text :=
  ['/'].intercalate parts

/-- `str::len`, which counts the bytes of UTF-8. -/
def byteLength (value : Text) : ℕ :=
  (value.map Char.utf8Size).sum

/-- `is_ascii`. -/
def isAscii (value : Text) : Bool :=
  value.all fun c => decide (c.val < 128)

/-- The components that no path may have. -/
def reservedComponents : List Text :=
  [[], ".".toList, "..".toList, ".git".toList]

/-- `safe_path`. -/
def safePath (value : Text) : Bool :=
  !value.isEmpty && decide (byteLength value ≤ 512) && isAscii value &&
    !(value.contains '\\' || value.contains '\x00') &&
    (components value).all fun part => !reservedComponents.contains part

/-- `logical_path`, in the tool that builds a release; its lengths count characters. -/
def logicalPath (value : Text) : Except String Text :=
  if value = [] ∨ isAscii value = false ∨ 512 < value.length ∨ '\\' ∈ value ∨ '\x00' ∈ value ∨
      ∃ part ∈ components value, part ∈ reservedComponents then
    .error "unsafe logical artifact path"
  else
    .ok value

theorem byteLength_of_isAscii {value : Text} (h : isAscii value = true) :
    byteLength value = value.length := by
  induction value with
  | nil => rfl
  | cons c rest ih =>
    rw [isAscii, List.all_cons, Bool.and_eq_true, decide_eq_true_iff] at h
    have hsize : c.utf8Size = 1 := by
      rw [Char.utf8Size_eq_one_iff, UInt32.le_iff_toNat_le]
      have hlt := UInt32.lt_iff_toNat_lt.mp h.1
      exact Nat.le_of_lt_succ hlt
    rw [byteLength, List.map_cons, List.sum_cons, hsize, List.length_cons, Nat.add_comm]
    exact congrArg (· + 1) (ih h.2)

/-- The two checks agree. -/
theorem safePath_iff_logicalPath (value : Text) :
    safePath value = true ↔ logicalPath value = .ok value := by
  have hok : logicalPath value = .ok value ↔ ¬ (value = [] ∨ isAscii value = false ∨
      512 < value.length ∨ '\\' ∈ value ∨ '\x00' ∈ value ∨
      ∃ part ∈ components value, part ∈ reservedComponents) := by
    rw [logicalPath]
    split
    · rename_i hunsafe
      exact ⟨nofun, fun hnot => absurd hunsafe hnot⟩
    · rename_i hsafe
      exact iff_of_true rfl hsafe
  rw [hok, safePath]
  by_cases hascii : isAscii value = true
  · simp only [byteLength_of_isAscii hascii, hascii, Bool.and_eq_true, Bool.not_eq_true',
      List.isEmpty_eq_false_iff, decide_eq_true_iff, Bool.or_eq_false_iff, List.contains_eq_mem,
      decide_eq_false_iff_not, List.all_eq_true, not_or, not_exists, not_and, not_lt, and_assoc,
      Bool.true_eq_false, not_false_eq_true, true_and, ne_eq, and_true]
  · simp [hascii]

/-! ### Components -/

theorem slash_notMem_components {value : Text} :
    ∀ {part : Text}, part ∈ components value → '/' ∉ part := by
  induction value with
  | nil =>
    intro part h
    obtain rfl := List.mem_singleton.mp h
    exact List.not_mem_nil
  | cons c rest ih =>
    intro part h
    rw [components, List.splitOn_cons_eq_if_modifyHead] at h
    split at h
    · rcases List.mem_cons.mp h with rfl | h
      · exact List.not_mem_nil
      · exact ih h
    · rename_i hne
      obtain ⟨first, others, hsplit⟩ := List.exists_cons_of_ne_nil (List.splitOn_ne_nil '/' rest)
      rw [hsplit, List.modifyHead_cons] at h
      have hin : ∀ part ∈ first :: others, '/' ∉ part := fun part hmem =>
        ih (by rw [components, hsplit]; exact hmem)
      rcases List.mem_cons.mp h with rfl | h
      · rw [List.mem_cons, not_or]
        exact ⟨fun heq => hne (beq_iff_eq.mpr heq.symm), hin first List.mem_cons_self⟩
      · exact hin part (List.mem_cons_of_mem _ h)

theorem joinComponents_components (value : Text) : joinComponents (components value) = value :=
  List.intercalate_splitOn '/'

theorem components_joinComponents {parts : List Text} (hparts : ∀ part ∈ parts, '/' ∉ part)
    (hne : parts ≠ []) : components (joinComponents parts) = parts :=
  List.splitOn_intercalate '/' hparts hne

/-- A path that would have to be a directory of another one: its components are the first ones of the
other path, and not all of them. -/
def ComponentPrefix (value other : Text) : Prop :=
  components value <+: components other ∧ value ≠ other

instance (value other : Text) : Decidable (ComponentPrefix value other) :=
  inferInstanceAs (Decidable (_ ∧ _))

theorem components_ne_nil (value : Text) : components value ≠ [] :=
  List.splitOn_ne_nil '/' value

/-- One more component. -/
theorem joinComponents_snoc {parts : List Text} (hne : parts ≠ []) (part : Text) :
    joinComponents (parts ++ [part]) = joinComponents parts ++ '/' :: part := by
  induction parts with
  | nil => exact absurd rfl hne
  | cons first parts ih =>
    cases parts with
    | nil =>
      rw [joinComponents, joinComponents, List.singleton_append, List.intercalate_cons_cons,
        List.intercalate_singleton, List.intercalate_singleton, List.append_assoc,
        List.singleton_append]
    | cons next parts =>
      have hrest := ih (List.cons_ne_nil next parts)
      rw [joinComponents, joinComponents] at hrest ⊢
      rw [List.cons_append, List.cons_append, List.intercalate_cons_cons, ← List.cons_append, hrest,
        List.intercalate_cons_cons, List.append_assoc, List.append_assoc, List.append_assoc]

theorem joinComponents_prefix (parts rest : List Text) :
    joinComponents parts <+: joinComponents (parts ++ rest) := by
  induction parts with
  | nil => exact List.nil_prefix
  | cons part parts ih =>
    cases parts with
    | nil =>
      cases rest with
      | nil => exact List.prefix_rfl
      | cons next rest =>
        rw [joinComponents, joinComponents, List.intercalate_singleton, List.cons_append,
          List.nil_append, List.intercalate_cons_cons, List.append_assoc]
        exact List.prefix_append _ _
    | cons next parts =>
      rw [joinComponents, joinComponents, List.cons_append, List.cons_append,
        List.intercalate_cons_cons, List.intercalate_cons_cons, List.prefix_append_right_inj]
      exact ih

theorem joinComponents_ne_nil {parts : List Text} (hne : parts ≠ [])
    (hparts : ∀ part ∈ parts, part ≠ []) : joinComponents parts ≠ [] := by
  obtain ⟨first, rest, rfl⟩ := List.exists_cons_of_ne_nil hne
  intro hempty
  have hfirst : joinComponents [first] <+: joinComponents ([first] ++ rest) :=
    joinComponents_prefix [first] rest
  rw [List.singleton_append, hempty, List.prefix_nil, joinComponents,
    List.intercalate_singleton] at hfirst
  exact hparts first List.mem_cons_self hfirst

/-- The order of the paths puts a directory in front of what it contains. -/
theorem ComponentPrefix.lt {value other : Text} (h : ComponentPrefix value other) : value < other := by
  obtain ⟨⟨rest, hrest⟩, hne⟩ := h
  have hstart : value <+: other := by
    rw [← joinComponents_components value, ← joinComponents_components other, ← hrest]
    exact joinComponents_prefix _ _
  rcases lt_trichotomy value other with hlt | heq | hgt
  · exact hlt
  · exact absurd heq hne
  · exact absurd hgt hstart.le

/-! ### Below a directory -/

/-- One component of a path, from a directory on. -/
def resolveComponent (directory : List Text) (part : Text) : List Text :=
  if part = [] ∨ part = ".".toList then directory
  else if part = "..".toList then directory.dropLast
  else directory ++ [part]

/-- `Path::join`: an absolute path starts at the root, and another one at the directory. -/
def joinPath (directory : List Text) (value : Text) : List Text :=
  (components value).foldl resolveComponent (if value.head? = some '/' then [] else directory)

theorem safePath_parts {value : Text} (h : safePath value = true) {part : Text}
    (hpart : part ∈ components value) : part ∉ reservedComponents := by
  rw [safePath, Bool.and_eq_true, List.all_eq_true] at h
  simpa using h.2 part hpart

/-- A path that starts with a slash has an empty component. -/
theorem head_ne_slash {value : Text} (h : safePath value = true) : value.head? ≠ some '/' := by
  intro hhead
  obtain ⟨rest, rfl⟩ := List.head?_eq_some_iff.mp hhead
  have hempty : [] ∈ components ('/' :: rest) := by
    rw [components, List.splitOn_cons_eq_if_modifyHead]
    exact List.mem_cons_self
  exact safePath_parts h hempty List.mem_cons_self

theorem foldl_resolveComponent {parts : List Text}
    (hparts : ∀ part ∈ parts, part ∉ reservedComponents) (directory : List Text) :
    parts.foldl resolveComponent directory = directory ++ parts := by
  induction parts generalizing directory with
  | nil => exact (List.append_nil _).symm
  | cons part rest ih =>
    have hpart := hparts part List.mem_cons_self
    simp only [reservedComponents, List.mem_cons, not_or] at hpart
    have hstep : resolveComponent directory part = directory ++ [part] := by
      rw [resolveComponent, if_neg (not_or.mpr ⟨hpart.1, hpart.2.1⟩), if_neg hpart.2.2.1]
    rw [List.foldl_cons, hstep, ih fun part' hmem => hparts part' (List.mem_cons_of_mem _ hmem),
      List.append_assoc, List.singleton_append]

/-- A safe path stays below the directory, component by component. -/
theorem joinPath_eq {value : Text} (h : safePath value = true) (directory : List Text) :
    joinPath directory value = directory ++ components value ∧
      ∀ n, ((components value).take n).foldl resolveComponent directory =
        directory ++ (components value).take n := by
  refine ⟨?_, fun n => ?_⟩
  · rw [joinPath, if_neg (head_ne_slash h)]
    exact foldl_resolveComponent (fun part => safePath_parts h) directory
  · exact foldl_resolveComponent
      (fun part hpart => safePath_parts h (List.mem_of_mem_take hpart)) directory

end VllmOxide.Release
