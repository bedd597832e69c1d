import Mathlib.Data.List.Induction
import Mathlib.Data.List.Infix
import VllmOxide.Library.Outcome

/-!
# Trees of files

A tree says what is at each path: a directory, a file with its content, or nothing. Three operations
change it. The directories of a path can be created, unless there is a file in the place of one of
them. A file can be created, if there is nothing at its path and its parent is a directory. A file can
be written, which replaces one that is there already.

Creating files one after another, each with the directories above it, works if no path is the first
part of another one. What comes out is then described by the list of the files alone.

## Main definitions

* `Node`, `FileTree`: what is at the paths.
* `createDirAll`, `createNew`, `write`: the operations.
* `createFiles`: the files of a list, one after another.
* `withFiles`: a tree with the files of a list.

## Main results

* `createFiles_eq`: the files are created, and nothing else changes.
-/

namespace VllmOxide

/-- What is at a path. -/
inductive Node (C : Type) where
  | directory
  | file (content : C)
deriving DecidableEq

/-- What is at each path. -/
abbrev FileTree (N C : Type) := List N → Option (Node C)

namespace FileTree

variable {N C : Type} [DecidableEq N]

/-- The tree with something at a path. -/
def set (tree : FileTree N C) (path : List N) (node : Node C) : FileTree N C := fun other =>
  if other = path then some node else tree other

/-- A directory, if it is not there already. -/
def createDir (tree : FileTree N C) (path : List N) : Except String (FileTree N C) :=
  match tree path with
  | none => .ok (tree.set path .directory)
  | some .directory => .ok tree
  | some (.file _) => .error "not a directory"

/-- The directories of a path, from the root on. -/
def createDirAll (tree : FileTree N C) (path : List N) : Except String (FileTree N C) :=
  path.inits.foldlM createDir tree

/-- A file, if there is nothing at its path. -/
def createNew (tree : FileTree N C) (path : List N) (content : C) :
    Except String (FileTree N C) :=
  match tree path with
  | some _ => .error "file exists"
  | none =>
    match tree path.dropLast with
    | some .directory => .ok (tree.set path (.file content))
    | _ => .error "not a directory"

/-- A file, in the place of one that is there already. -/
def write (tree : FileTree N C) (path : List N) (content : C) : Except String (FileTree N C) :=
  match tree path with
  | some .directory => .error "is a directory"
  | _ =>
    match tree path.dropLast with
    | some .directory => .ok (tree.set path (.file content))
    | _ => .error "not a directory"

/-- A file with the directories above it. -/
def createFile (tree : FileTree N C) (file : List N × C) : Except String (FileTree N C) := do
  let tree ← tree.createDirAll file.1.dropLast
  tree.createNew file.1 file.2

/-- The files of a list, one after another. -/
def createFiles (tree : FileTree N C) (files : List (List N × C)) :
    Except String (FileTree N C) :=
  files.foldlM createFile tree

/-- A tree in which a path and the paths above it are directories. -/
def withDirectories (tree : FileTree N C) (path : List N) : FileTree N C := fun other =>
  if other <+: path then some .directory else tree other

/-- A tree with the files of a list and the directories above them. -/
def withFiles (tree : FileTree N C) (files : List (List N × C)) : FileTree N C := fun path =>
  match files.lookup path with
  | some content => some (.file content)
  | none => if ∃ file ∈ files, path <+: file.1 then some .directory else tree path

/-- There is no file at a path or above it. -/
def Free (tree : FileTree N C) (path : List N) : Prop :=
  ∀ above, above <+: path → tree above = none ∨ tree above = some .directory

omit [DecidableEq N] in
theorem Free.of_prefix {tree : FileTree N C} {path above : List N} (h : tree.Free path)
    (habove : above <+: path) : tree.Free above :=
  fun other hother => h other (hother.trans habove)

theorem createDir_eq {tree : FileTree N C} {path : List N}
    (h : tree path = none ∨ tree path = some .directory) :
    tree.createDir path = .ok (tree.set path .directory) := by
  rcases h with h | h
  · rw [createDir, h]
  · have hset : tree.set path .directory = tree := by
      funext other
      rw [set]
      split
      · rename_i heq
        rw [heq, h]
      · rfl
    rw [createDir, h, hset]

/-- The directories of a path are created where no file is in the way. -/
theorem createDirAll_eq {tree : FileTree N C} {path : List N} (h : tree.Free path) :
    tree.createDirAll path = .ok (tree.withDirectories path) := by
  induction path using List.reverseRecOn with
  | nil =>
    have hinits : ([] : List N).inits = [[]] := rfl
    rw [createDirAll, hinits, List.foldlM_cons, createDir_eq (h [] List.prefix_rfl)]
    refine congrArg Except.ok (funext fun other => ?_)
    simp only [set, withDirectories, List.prefix_nil]
  | append_singleton path name ih =>
    have hinits : (path ++ [name]).inits = path.inits ++ [path ++ [name]] := by
      rw [List.inits_append]
      simp
    have hfirst := ih (h.of_prefix (List.prefix_append _ _))
    rw [createDirAll] at hfirst
    rw [createDirAll, hinits, List.foldlM_append, hfirst]
    change List.foldlM createDir (tree.withDirectories path) [path ++ [name]] = _
    have hnot : ¬ path ++ [name] <+: path := fun hunder => by
      have hlength := hunder.length_le
      rw [List.length_append, List.length_singleton] at hlength
      omega
    have hlast : tree.withDirectories path (path ++ [name]) = tree (path ++ [name]) := if_neg hnot
    rw [List.foldlM_cons, createDir_eq (hlast ▸ h _ List.prefix_rfl)]
    refine congrArg Except.ok (funext fun other => ?_)
    simp only [set, withDirectories, List.prefix_concat_iff]
    by_cases hother : other = path ++ [name]
    · rw [if_pos hother, if_pos (.inl hother)]
    · rw [if_neg hother]
      simp only [hother, false_or]

/-- A file is created, with the directories above it. -/
theorem createFile_eq {tree : FileTree N C} {path : List N} {content : C} (hne : path ≠ [])
    (hfree : tree.Free path) (hnone : tree path = none) :
    tree.createFile (path, content) =
      .ok ((tree.withDirectories path).set path (.file content)) := by
  have hlast : path.dropLast <+: path := List.dropLast_prefix path
  have hnot : ¬ path <+: path.dropLast := fun hunder => by
    have hlength := hunder.length_le
    have hpos := List.length_pos_iff.mpr hne
    rw [List.length_dropLast] at hlength
    omega
  have hpath : tree.withDirectories path.dropLast path = none := (if_neg hnot).trans hnone
  have hparent : tree.withDirectories path.dropLast path.dropLast = some .directory :=
    if_pos List.prefix_rfl
  rw [createFile, createDirAll_eq (hfree.of_prefix hlast)]
  change createNew (tree.withDirectories path.dropLast) path content = _
  rw [createNew, hpath, hparent]
  refine congrArg Except.ok (funext fun other => ?_)
  rw [set, set]
  split
  · rfl
  · rename_i hother
    rw [withDirectories, withDirectories]
    have hiff : other <+: path.dropLast ↔ other <+: path := by
      refine ⟨fun hunder => hunder.trans hlast, fun hunder => ?_⟩
      rw [← List.dropLast_append_getLast hne, List.prefix_concat_iff,
        List.dropLast_append_getLast hne] at hunder
      exact hunder.resolve_left hother
    simp only [hiff]

omit [DecidableEq N] in
theorem lookup_eq_none_iff_forall [BEq N] [LawfulBEq N] {files : List (List N × C)}
    {path : List N} : files.lookup path = none ↔ ∀ file ∈ files, file.1 ≠ path := by
  rw [List.lookup_eq_none_iff]
  refine forall₂_congr fun file _ => ?_
  rw [bne_iff_ne, ne_comm]

/-- Creating a file and writing it afterwards. -/
theorem createFile_eq_ok_iff {tree tree' : FileTree N C} {path : List N} {content : C} (blank : C) :
    tree.createFile (path, content) = .ok tree' ↔
      ∃ tree₁, tree.createDirAll path.dropLast = .ok tree₁ ∧
        ∃ tree₂, tree₁.createNew path blank = .ok tree₂ ∧
          tree' = tree₂.set path (.file content) := by
  have hset (tree₁ : FileTree N C) : (tree₁.set path (.file blank)).set path (.file content) =
      tree₁.set path (.file content) := by
    funext other
    rw [set, set, set]
    split
    · rfl
    · rfl
  have hnew (tree₁ : FileTree N C) : tree₁.createNew path content = .ok tree' ↔
      ∃ tree₂, tree₁.createNew path blank = .ok tree₂ ∧ tree' = tree₂.set path (.file content) := by
    rw [createNew, createNew]
    split
    · exact iff_of_false nofun (by rintro ⟨tree₂, h, -⟩; cases h)
    · split
      · constructor
        · intro h
          exact ⟨_, rfl, by rw [hset, ← Except.ok.inj h]⟩
        · rintro ⟨tree₂, h, rfl⟩
          rw [← Except.ok.inj h, hset]
      · exact iff_of_false nofun (by rintro ⟨tree₂, h, -⟩; cases h)
  rw [createFile, bind_eq_ok_iff]
  exact exists_congr fun tree₁ => and_congr_right fun _ => hnew tree₁

/-- No path of the list is another one or above it. -/
def Apart (files : List (List N × C)) : Prop :=
  files.Pairwise fun file other => ¬ file.1 <+: other.1 ∧ ¬ other.1 <+: file.1

omit [DecidableEq N] in
theorem lookup_of_mem {K : Type} [BEq K] [LawfulBEq K] {entries : List (K × C)}
    (h : entries.Pairwise fun entry other => entry.1 ≠ other.1) {key : K} {value : C}
    (hmem : (key, value) ∈ entries) : entries.lookup key = some value := by
  induction entries with
  | nil => cases hmem
  | cons entry entries ih =>
    obtain ⟨hfirst, hrest⟩ := List.pairwise_cons.mp h
    rcases List.mem_cons.mp hmem with rfl | hmem
    · exact List.lookup_cons_self
    · rw [List.lookup_cons, beq_false_of_ne (hfirst _ hmem).symm]
      exact ih hrest hmem

/-- A file of the list is there. -/
theorem withFiles_of_mem {tree : FileTree N C} {files : List (List N × C)} (hapart : Apart files)
    {path : List N} {content : C} (hmem : (path, content) ∈ files) :
    tree.withFiles files path = some (.file content) := by
  have hdistinct : files.Pairwise fun file other => file.1 ≠ other.1 :=
    hapart.imp fun hpair heq => hpair.1 (by rw [heq])
  rw [withFiles, lookup_of_mem hdistinct hmem]

/-- Where no file of the list is, there is a directory above one or what was there before. -/
theorem withFiles_of_forall_ne {tree : FileTree N C} {files : List (List N × C)} {path : List N}
    (h : ∀ file ∈ files, file.1 ≠ path) :
    tree.withFiles files path =
      if ∃ file ∈ files, path <+: file.1 then some .directory else tree path := by
  rw [withFiles, lookup_eq_none_iff_forall.mpr h]

omit [DecidableEq N] in
/-- The paths above a path, without the path itself. -/
theorem mem_ancestors_iff {path above : List N} :
    above ∈ path.inits.reverse.drop 1 ↔ above <+: path ∧ above ≠ path := by
  rcases List.eq_nil_or_concat path with rfl | ⟨rest, name, rfl⟩
  · refine iff_of_false (by simp) ?_
    rintro ⟨hunder, hne⟩
    exact hne (List.prefix_nil.mp hunder)
  · have hinits : (rest.concat name).inits = rest.inits ++ [rest ++ [name]] := by
      rw [List.concat_eq_append, List.inits_append]
      simp
    rw [hinits, List.reverse_append, List.reverse_singleton, List.singleton_append,
      List.drop_succ_cons, List.drop_zero, List.mem_reverse, List.mem_inits,
      List.concat_eq_append, List.prefix_concat_iff]
    constructor
    · intro hunder
      refine ⟨.inr hunder, ?_⟩
      rintro rfl
      have hlength := hunder.length_le
      rw [List.length_append, List.length_singleton] at hlength
      omega
    · rintro ⟨hunder, hne⟩
      exact hunder.resolve_left hne

/-- One more file, apart from the others. -/
theorem withFiles_snoc {tree : FileTree N C} {files : List (List N × C)} {path : List N}
    {content : C} (hapart : ∀ file ∈ files, ¬ file.1 <+: path ∧ ¬ path <+: file.1)
    (other : List N) :
    tree.withFiles (files ++ [(path, content)]) other =
      ((tree.withFiles files).withDirectories path).set path (.file content) other := by
  rw [withFiles, List.lookup_append, set]
  by_cases hpath : other = path
  · subst hpath
    have hnone : files.lookup other = none := lookup_eq_none_iff_forall.mpr fun file hfile heq =>
      (hapart file hfile).1 (heq ▸ List.prefix_rfl)
    rw [if_pos rfl, hnone, Option.none_or, List.lookup_cons_self]
  · rw [if_neg hpath, List.lookup_cons, beq_false_of_ne hpath, withDirectories, withFiles]
    cases hlookup : files.lookup other with
    | some content' =>
      have hnot : ¬ other <+: path := fun hunder => by
        have hnone := lookup_eq_none_iff_forall.mpr fun file hfile (heq : file.1 = other) =>
          (hapart file hfile).1 (heq ▸ hunder)
        rw [hlookup] at hnone
        cases hnone
      rw [if_neg hnot]
      rfl
    | none =>
      have hiff : (∃ file ∈ files ++ [(path, content)], other <+: file.1) ↔
          other <+: path ∨ ∃ file ∈ files, other <+: file.1 := by
        simp only [List.mem_append, List.mem_singleton, or_and_right, exists_or, exists_eq_left]
        exact or_comm
      simp only [hiff]
      by_cases hunder : other <+: path
      · rw [if_pos hunder, if_pos (.inl hunder)]
        rfl
      · simp only [hunder, false_or, if_false]
        rfl

/-- **The files are created**, and nothing else changes, where nothing is in the way and no path is
above another one. -/
theorem createFiles_eq {tree : FileTree N C} {files : List (List N × C)} (hapart : Apart files)
    (hne : ∀ file ∈ files, file.1 ≠ []) (hfree : ∀ file ∈ files, tree.Free file.1)
    (hnone : ∀ file ∈ files, tree file.1 = none) :
    tree.createFiles files = .ok (tree.withFiles files) := by
  induction files using List.reverseRecOn with
  | nil =>
    refine congrArg Except.ok (funext fun path => ?_)
    simp [withFiles]
  | append_singleton files file ih =>
    obtain ⟨path, content⟩ := file
    obtain ⟨hfirst, -, hlast⟩ := List.pairwise_append.mp hapart
    have hapart' : ∀ file ∈ files, ¬ file.1 <+: path ∧ ¬ path <+: file.1 := fun file hfile =>
      hlast file hfile _ List.mem_cons_self
    have hmem : (path, content) ∈ files ++ [(path, content)] := by simp
    have hbefore := ih hfirst (fun file hfile => hne file (List.mem_append_left _ hfile))
      (fun file hfile => hfree file (List.mem_append_left _ hfile))
      fun file hfile => hnone file (List.mem_append_left _ hfile)
    have hlookup {above : List N} (habove : above <+: path) : files.lookup above = none :=
      lookup_eq_none_iff_forall.mpr fun file hfile heq => (hapart' file hfile).1 (heq ▸ habove)
    have hfree' : (tree.withFiles files).Free path := fun above habove => by
      rw [withFiles, hlookup habove]
      by_cases hin : ∃ file ∈ files, above <+: file.1
      · exact .inr (if_pos hin)
      · rw [if_neg hin]
        exact hfree _ hmem above habove
    have hnone' : tree.withFiles files path = none := by
      rw [withFiles, hlookup List.prefix_rfl]
      refine (if_neg ?_).trans (hnone _ hmem)
      rintro ⟨file, hfile, hunder⟩
      exact (hapart' file hfile).2 hunder
    rw [createFiles] at hbefore
    rw [createFiles, List.foldlM_append, hbefore]
    change List.foldlM createFile (tree.withFiles files) [(path, content)] = _
    rw [List.foldlM_cons, createFile_eq (hne _ hmem) hfree' hnone']
    refine congrArg Except.ok (funext fun other => ?_)
    exact (withFiles_snoc hapart' other).symm

end FileTree

end VllmOxide
