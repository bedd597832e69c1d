import Mathlib.Algebra.Order.BigOperators.Group.List
import Mathlib.Data.List.Dedup
import Mathlib.Data.List.Induction
import Mathlib.Data.List.Sort
import VllmOxide.Release.EndMarkers
import VllmOxide.Release.LogicalPath

/-!
# The inventory of a release

A release lists its artifacts in the order of their logical paths. The host checks the list in one
pass: it compares each path with the one before it, and looks up the directories of the path among the
paths that it has seen. The tool that builds a release compares the whole list with its sorted set, and
looks up the directories among all paths. A directory stands in front of what it contains, so the one
pass misses no conflict, and the two validators accept the same manifests.

## Main definitions

* `Artifact`, `ReleaseManifest`, `ToolManifest`: the decoded manifest, of the host and of the tool.
* `inventoryPass`, `parseManifest`: the checks of the host.
* `exactInventory`, `modelValidates`, `readsManifest`: the checks of the tool.
* `Canonical`, `ConflictFree`: what an accepted list of artifacts is like.

## Main results

* `inventoryPass_eq`: a canonical list passes exactly if it has no conflict.
* `parseManifest_isOk_iff`, `readsManifest_iff`: the two validators accept the same manifests.
-/

namespace VllmOxide.Release

/-- `FILE_LIMIT`. -/
def FILE_LIMIT : ℕ := 8 * 1024 * 1024 * 1024 - 1

/-- `TOTAL_LIMIT`. -/
def TOTAL_LIMIT : ℕ := 1024 * 1024 * 1024 * 1024

/-- `ARTIFACT_LIMIT`, which the host spells out. -/
def ARTIFACT_LIMIT : ℕ := 50000

/-- `Artifact`. -/
structure Artifact where
  logicalPath : Text
  filename : Text
  sha256 : Text
  sizeBytes : ℕ
deriving DecidableEq

/-- `Source`. -/
structure Source where
  commit : Text
  tree : Text

/-- `ArchiveIdentity`. -/
structure ArchiveIdentity where
  filename : Text
  sha256 : Text

/-- `Entrypoints`. -/
structure Entrypoints where
  authoritativeManifest : Text
  authoritativeMarker : Text
  performance : Text
  cpuGates : Text

/-- The fields of a manifest that the host and the tool decode alike. -/
structure ManifestFields where
  schemaVersion : ℕ
  protocol : Text
  productVersion : Text
  goldenVersion : Text
  source : Source
  registrySha256 : Text
  policySha256 : Text
  definitionIndexBlob : Text
  entrypoints : Entrypoints
  artifacts : List Artifact

/-- `ReleaseManifest` of the host. -/
structure ReleaseManifest extends ManifestFields where
  counts : List (Text × UInt64)
  archive : ArchiveIdentity

/-- `ReleaseManifest` of the tool, which has no archive before the bundle is built. -/
structure ToolManifest extends ManifestFields where
  counts : List (Text × ℤ)
  archive : Option ArchiveIdentity

/-- The manifest of the host as the tool decodes it. -/
def ReleaseManifest.asTool (value : ReleaseManifest) : ToolManifest where
  toManifestFields := value.toManifestFields
  counts := value.counts.map fun count => (count.1, (count.2.toNat : ℤ))
  archive := some value.archive

/-- The four paths of the entrypoints. -/
def Entrypoints.paths (entrypoints : Entrypoints) : List Text :=
  [entrypoints.authoritativeManifest, entrypoints.authoritativeMarker, entrypoints.performance,
    entrypoints.cpuGates]

/-! ### The host -/

/-- A digit of a lower-case hexadecimal number. -/
def isHexDigit (c : Char) : Bool :=
  ('0' ≤ c && c ≤ '9') || ('a' ≤ c && c ≤ 'f')

/-- `hex`. -/
def hex (value : Text) (size : ℕ) : Bool :=
  decide (byteLength value = size) && value.all isHexDigit

/-- A number with zeros in front of it. -/
def zeroPadded (width : ℕ) (digits : List Char) : Text :=
  List.replicate (width - digits.length) '0' ++ digits

/-- `artifact-{index:06}.bin`. -/
def artifactFilename (index : ℕ) : Text :=
  "artifact-".toList ++ zeroPadded 6 (Nat.toDigits 10 index) ++ ".bin".toList

/-- The walk over the components of a path, which looks up the ones before each component. -/
def directoryConflict (names : List Text) : (directory : Text) → (parts : List Text) → Bool
  | _, [] => false
  | directory, part :: parts =>
    names.contains directory || directoryConflict names
      (if directory.isEmpty then part else directory ++ '/' :: part) parts

/-- What the pass remembers: the paths, the last one, and the sum of the sizes. -/
structure InventoryState where
  names : List Text
  previous : Option Text
  total : ℕ

/-- The pass before the first artifact. -/
def InventoryState.initial : InventoryState where
  names := []
  previous := none
  total := 0

/-- The pass over one artifact. -/
def inventoryStep (state : InventoryState) (index : ℕ) (artifact : Artifact) :
    Except String InventoryState := do
  bailIf (safePath artifact.logicalPath = false ∨
      (∃ previous ∈ state.previous, artifact.logicalPath ≤ previous) ∨
      artifact.filename ≠ artifactFilename index ∨ hex artifact.sha256 64 = false ∨
      FILE_LIMIT < artifact.sizeBytes)
    "invalid artifact inventory"
  bailIf (directoryConflict state.names [] (components artifact.logicalPath))
    "file/directory path conflict"
  bailIf (U64_MAX < state.total + artifact.sizeBytes) "size overflow"
  return {
    names := state.names ++ [artifact.logicalPath]
    previous := some artifact.logicalPath
    total := state.total + artifact.sizeBytes }

/-- The pass over the artifacts. -/
def inventoryPass (artifacts : List Artifact) : Except String InventoryState :=
  artifacts.zipIdx.foldlM (fun state indexed => inventoryStep state indexed.2 indexed.1) .initial

/-- `parse_manifest`, after the manifest was decoded. -/
def parseManifest (value : ReleaseManifest) : Except String ReleaseManifest := do
  bailIf (value.schemaVersion ≠ 5 ∨ value.protocol ≠ "layered-accuracy-v1".toList ∨
      value.productVersion ≠ "v0.2.0".toList ∨ value.goldenVersion ≠ "goldens-v0.2".toList ∨
      value.archive.filename ≠ "goldens-v0.2.tar.gz".toList ∨
      hex value.archive.sha256 64 = false ∨ hex value.source.commit 40 = false ∨
      hex value.source.tree 40 = false ∨ hex value.registrySha256 64 = false ∨
      hex value.policySha256 64 = false ∨ hex value.definitionIndexBlob 40 = false ∨
      value.artifacts = [] ∨ ARTIFACT_LIMIT < value.artifacts.length)
    "invalid schema5 release identity or bounds"
  let state ← inventoryPass value.artifacts
  bailIf (TOTAL_LIMIT < state.total) "extracted size limit exceeded"
  bailIf (∃ path ∈ value.entrypoints.paths, path ∉ state.names) "missing release entrypoint"
  return value

/-! ### The tool -/

/-- The patterns `^[0-9a-f]{64}$` and `^[0-9a-f]{40}$`. -/
def hexPattern (value : Text) (size : ℕ) : Bool :=
  decide (value.length = size) && value.all isHexDigit

/-- The pattern `^artifact-[0-9]{6}\.bin$`. -/
def filenamePattern (value : Text) : Bool :=
  decide (value.length = 19) && decide (value.take 9 = "artifact-".toList) &&
    ((value.drop 9).take 6).all Char.isDigit && decide (value.drop 15 = ".bin".toList)

/-- The fields of an artifact. -/
def Artifact.fieldsValid (artifact : Artifact) : Bool :=
  filenamePattern artifact.filename && hexPattern artifact.sha256 64 &&
    decide (artifact.sizeBytes ≤ FILE_LIMIT) && (Release.logicalPath artifact.logicalPath).isOk

/-- The fields of an archive identity. -/
def ArchiveIdentity.fieldsValid (archive : ArchiveIdentity) : Bool :=
  decide (archive.filename = "goldens-v0.2.tar.gz".toList) && hexPattern archive.sha256 64

/-- The fields of a manifest. -/
def ToolManifest.fieldsValid (value : ToolManifest) : Bool :=
  decide (value.schemaVersion = 5) && decide (value.protocol = "layered-accuracy-v1".toList) &&
    decide (value.productVersion = "v0.2.0".toList) &&
    decide (value.goldenVersion = "goldens-v0.2".toList) &&
    value.archive.all ArchiveIdentity.fieldsValid && hexPattern value.source.commit 40 &&
    hexPattern value.source.tree 40 && hexPattern value.registrySha256 64 &&
    hexPattern value.policySha256 64 && hexPattern value.definitionIndexBlob 40 &&
    decide (1 ≤ value.artifacts.length) && decide (value.artifacts.length ≤ ARTIFACT_LIMIT) &&
    value.artifacts.all Artifact.fieldsValid

/-- `sorted(set(names))`. -/
def sortedSet (names : List Text) : List Text :=
  names.dedup.insertionSort (· ≤ ·)

/-- The lookup of all directories of a path. -/
def pathConflict (files : List Text) (path : Text) : Bool :=
  (List.range' 1 ((components path).length - 1)).any fun n =>
    files.contains (joinComponents ((components path).take n))

/-- `ReleaseManifest.exact_inventory`. -/
def exactInventory (value : ToolManifest) : Except String Unit := do
  let names := value.artifacts.map Artifact.logicalPath
  bailIf (names ≠ sortedSet names) "logical inventory must be sorted and unique"
  value.artifacts.zipIdx.forM fun indexed => do
    bailIf (indexed.1.filename ≠ artifactFilename indexed.2) "noncanonical flat inventory filename"
    bailIf (pathConflict names indexed.1.logicalPath) "file/directory logical path conflict"
  bailIf (TOTAL_LIMIT < (value.artifacts.map Artifact.sizeBytes).sum)
    "extracted size limit exceeded"
  bailIf (∃ path ∈ value.entrypoints.paths, path ∉ names) "missing release entrypoint"
  bailIf (∃ count ∈ value.counts, ¬ (0 ≤ count.2 ∧ count.2 ≤ 2 ^ 64 - 1))
    "invalid release counts"

/-- `ReleaseManifest.model_validate` accepts a manifest. -/
def modelValidates (value : ToolManifest) : Bool :=
  value.fieldsValid && (exactInventory value).isOk

/-- `read_manifest` accepts a manifest, after it was decoded. -/
def readsManifest (value : ToolManifest) : Bool :=
  modelValidates value && value.archive.isSome

/-! ### The lookups of directories -/

/-- The walk over the components looks up every proper first part of them. -/
theorem directoryConflict_iff (names done parts : List Text)
    (hparts : ∀ part ∈ done ++ parts, part ≠ []) :
    directoryConflict names (joinComponents done) parts = true ↔
      ∃ n, done.length ≤ n ∧ n < (done ++ parts).length ∧
        joinComponents ((done ++ parts).take n) ∈ names := by
  induction parts generalizing done with
  | nil =>
    refine iff_of_false Bool.false_ne_true ?_
    rintro ⟨n, hle, hlt, -⟩
    rw [List.append_nil] at hlt
    omega
  | cons part parts ih =>
    have hnext : (if (joinComponents done).isEmpty then part else joinComponents done ++ '/' :: part) =
        joinComponents (done ++ [part]) := by
      cases done with
      | nil => exact (List.intercalate_singleton).symm
      | cons first rest =>
        have hne : joinComponents (first :: rest) ≠ [] :=
          joinComponents_ne_nil (List.cons_ne_nil _ _) fun part' hmem =>
            hparts part' (List.mem_append_left _ hmem)
        rw [if_neg (by simpa using hne), joinComponents_snoc (List.cons_ne_nil _ _)]
    have happend : done ++ part :: parts = (done ++ [part]) ++ parts := by simp
    rw [directoryConflict, Bool.or_eq_true, hnext, ih (done ++ [part]) (happend ▸ hparts), ← happend,
      List.contains_iff_mem, List.length_append, List.length_singleton]
    constructor
    · rintro (hmem | ⟨n, hle, hlt, hmem⟩)
      · refine ⟨done.length, le_rfl, by simp, ?_⟩
        rwa [List.take_left]
      · exact ⟨n, by omega, hlt, hmem⟩
    · rintro ⟨n, hle, hlt, hmem⟩
      rcases hle.eq_or_lt with rfl | hgt
      · rw [List.take_left] at hmem
        exact .inl hmem
      · exact .inr ⟨n, hgt, hlt, hmem⟩

theorem pathConflict_iff_take {files : List Text} {path : Text} :
    pathConflict files path = true ↔ ∃ n, 1 ≤ n ∧ n < (components path).length ∧
      joinComponents ((components path).take n) ∈ files := by
  rw [pathConflict, List.any_eq_true]
  constructor
  · rintro ⟨n, hn, hmem⟩
    rw [List.mem_range'_1] at hn
    exact ⟨n, hn.1, by omega, List.contains_iff_mem.mp hmem⟩
  · rintro ⟨n, hle, hlt, hmem⟩
    exact ⟨n, List.mem_range'_1.mpr ⟨hle, by omega⟩, List.contains_iff_mem.mpr hmem⟩

theorem ne_nil_of_mem_components {path : Text} (hpath : safePath path = true) {part : Text}
    (hpart : part ∈ components path) : part ≠ [] := by
  rintro rfl
  exact safePath_parts hpath hpart List.mem_cons_self

/-- Both validators look up the directories of a path alike. -/
theorem directoryConflict_eq_pathConflict {names : List Text} (hnames : [] ∉ names) {path : Text}
    (hpath : safePath path = true) :
    directoryConflict names [] (components path) = pathConflict names path := by
  rw [Bool.eq_iff_iff, pathConflict_iff_take]
  have hwalk := directoryConflict_iff names [] (components path)
    fun part hpart => ne_nil_of_mem_components hpath hpart
  rw [List.nil_append] at hwalk
  refine hwalk.trans ⟨?_, ?_⟩
  · rintro ⟨n, -, hlt, hmem⟩
    rcases Nat.eq_zero_or_pos n with rfl | hpos
    · exact absurd hmem hnames
    · exact ⟨n, hpos, hlt, hmem⟩
  · rintro ⟨n, -, hlt, hmem⟩
    exact ⟨n, Nat.zero_le n, hlt, hmem⟩

/-- Some directory of the path is among the files. -/
theorem pathConflict_iff {files : List Text} {path : Text} :
    pathConflict files path = true ↔ ∃ file ∈ files, ComponentPrefix file path := by
  rw [pathConflict_iff_take]
  constructor
  · rintro ⟨n, hpos, hlt, hmem⟩
    have htake : (components path).take n ≠ [] := by
      rw [Ne, List.take_eq_nil_iff, not_or]
      exact ⟨by omega, components_ne_nil path⟩
    have hparts := components_joinComponents
      (fun part hpart => slash_notMem_components (List.mem_of_mem_take hpart)) htake
    refine ⟨_, hmem, ?_, fun heq => ?_⟩
    · rw [hparts]
      exact List.take_prefix _ _
    · rw [heq] at hparts
      have hlength := congrArg List.length hparts
      rw [List.length_take] at hlength
      omega
  · rintro ⟨file, hmem, hstart, hne⟩
    have htake : (components path).take (components file).length = components file :=
      (List.prefix_iff_eq_take.mp hstart).symm
    refine ⟨(components file).length, List.length_pos_iff.mpr (components_ne_nil file), ?_, ?_⟩
    · refine lt_of_le_of_ne hstart.length_le fun hlength => hne ?_
      rw [← joinComponents_components file, ← joinComponents_components path,
        hstart.eq_of_length hlength]
    · rwa [htake, joinComponents_components]

/-! ### The pass -/

/-- A list of artifacts that is in order, conflicts aside. -/
structure Canonical (artifacts : List Artifact) : Prop where
  safe : ∀ artifact ∈ artifacts, safePath artifact.logicalPath = true
  ascending : (artifacts.map Artifact.logicalPath).Pairwise (· < ·)
  filename : ∀ index artifact, artifacts[index]? = some artifact →
    artifact.filename = artifactFilename index
  sha256 : ∀ artifact ∈ artifacts, hex artifact.sha256 64 = true
  size : ∀ artifact ∈ artifacts, artifact.sizeBytes ≤ FILE_LIMIT

/-- No artifact would have to be a directory of another one. -/
def ConflictFree (artifacts : List Artifact) : Prop :=
  ∀ artifact ∈ artifacts, ∀ other ∈ artifacts,
    ¬ ComponentPrefix artifact.logicalPath other.logicalPath

instance (artifacts : List Artifact) : Decidable (ConflictFree artifacts) :=
  inferInstanceAs (Decidable (∀ artifact ∈ artifacts, _))

/-- The pass after the artifacts. -/
def InventoryState.after (artifacts : List Artifact) : InventoryState where
  names := artifacts.map Artifact.logicalPath
  previous := artifacts.getLast?.map Artifact.logicalPath
  total := (artifacts.map Artifact.sizeBytes).sum

theorem inventoryPass_snoc (artifacts : List Artifact) (artifact : Artifact) :
    inventoryPass (artifacts ++ [artifact]) =
      inventoryPass artifacts >>= fun state => inventoryStep state artifacts.length artifact := by
  rw [inventoryPass, List.zipIdx_append, List.foldlM_append]
  refine congrArg (inventoryPass artifacts >>= ·) (funext fun state => ?_)
  simp only [List.zipIdx_singleton, List.foldlM_cons, List.foldlM_nil, Nat.zero_add, bind_pure]

theorem canonical_nil : Canonical [] where
  safe := nofun
  ascending := List.Pairwise.nil
  filename := nofun
  sha256 := nofun
  size := nofun

/-- An ascending list is below a path if its last path is. -/
theorem forall_lt_iff_getLast {names : List Text} (h : names.Pairwise (· < ·)) (path : Text) :
    (∀ name ∈ names, name < path) ↔ ¬ ∃ previous ∈ names.getLast?, path ≤ previous := by
  rcases List.eq_nil_or_concat names with rfl | ⟨rest, last, rfl⟩
  · simp
  · rw [List.concat_eq_append] at h ⊢
    obtain ⟨-, -, hbelow⟩ := List.pairwise_append.mp h
    constructor
    · rintro hall ⟨previous, hprevious, hle⟩
      rw [List.getLast?_append, List.getLast?_singleton] at hprevious
      obtain rfl := Option.some.inj hprevious
      exact absurd (hall last (by simp)) (not_lt.mpr hle)
    · intro hnot name hmem
      have hlast : last < path := not_le.mp fun hle => hnot ⟨last, by simp, hle⟩
      rcases List.mem_append.mp hmem with hmem | hmem
      · exact (hbelow name hmem last List.mem_cons_self).trans hlast
      · obtain rfl := List.mem_singleton.mp hmem
        exact hlast

/-- One more artifact, checked against the last one. -/
theorem canonical_snoc_iff {artifacts : List Artifact} {artifact : Artifact} :
    Canonical (artifacts ++ [artifact]) ↔ Canonical artifacts ∧
      ¬ (safePath artifact.logicalPath = false ∨
        (∃ previous ∈ (InventoryState.after artifacts).previous, artifact.logicalPath ≤ previous) ∨
        artifact.filename ≠ artifactFilename artifacts.length ∨ hex artifact.sha256 64 = false ∨
        FILE_LIMIT < artifact.sizeBytes) := by
  have hprevious : (InventoryState.after artifacts).previous =
      (artifacts.map Artifact.logicalPath).getLast? := List.getLast?_map.symm
  have hlast : (artifacts ++ [artifact])[artifacts.length]? = some artifact := by simp
  rw [hprevious]
  constructor
  · intro h
    have hascending := h.ascending
    rw [List.map_append, List.pairwise_append] at hascending
    obtain ⟨hfirst, -, hbelow⟩ := hascending
    refine ⟨⟨fun a ha => h.safe a (List.mem_append_left _ ha), hfirst, fun index a ha => ?_,
      fun a ha => h.sha256 a (List.mem_append_left _ ha),
      fun a ha => h.size a (List.mem_append_left _ ha)⟩, ?_⟩
    · refine h.filename index a ?_
      rw [List.getElem?_append_left (List.getElem?_eq_some_iff.mp ha).1]
      exact ha
    · have hmem : artifact ∈ artifacts ++ [artifact] := by simp
      rintro (hsafe | hle | hname | hhex | hsize)
      · rw [h.safe _ hmem] at hsafe
        cases hsafe
      · exact (forall_lt_iff_getLast hfirst _).mp
          (fun name hname => hbelow name hname _ List.mem_cons_self) hle
      · exact hname (h.filename _ _ hlast)
      · rw [h.sha256 _ hmem] at hhex
        cases hhex
      · exact absurd (h.size _ hmem) (not_le.mpr hsize)
  · rintro ⟨h, hchecks⟩
    simp only [not_or, Bool.not_eq_false, ne_eq, not_not, not_lt] at hchecks
    obtain ⟨hsafe, hle, hname, hhex, hsize⟩ := hchecks
    have hmem {a : Artifact} (ha : a ∈ artifacts ++ [artifact]) : a ∈ artifacts ∨ a = artifact := by
      simpa using ha
    refine ⟨fun a ha => ?_, ?_, fun index a ha => ?_, fun a ha => ?_, fun a ha => ?_⟩
    · rcases hmem ha with ha | rfl
      · exact h.safe a ha
      · exact hsafe
    · rw [List.map_append, List.pairwise_append]
      refine ⟨h.ascending, List.pairwise_singleton _ _, fun name hname path hpath => ?_⟩
      obtain rfl := List.mem_singleton.mp hpath
      exact (forall_lt_iff_getLast h.ascending _).mpr hle name hname
    · rcases lt_trichotomy index artifacts.length with hlt | rfl | hgt
      · rw [List.getElem?_append_left hlt] at ha
        exact h.filename index a ha
      · obtain rfl := Option.some.inj (hlast.symm.trans ha)
        exact hname
      · rw [List.getElem?_eq_none (by rw [List.length_append]; exact hgt)] at ha
        cases ha
    · rcases hmem ha with ha | rfl
      · exact h.sha256 a ha
      · exact hhex
    · rcases hmem ha with ha | rfl
      · exact h.size a ha
      · exact hsize

theorem not_mem_nil_names {artifacts : List Artifact} (h : Canonical artifacts) :
    [] ∉ artifacts.map Artifact.logicalPath := by
  intro hmem
  obtain ⟨artifact, hartifact, hempty⟩ := List.mem_map.mp hmem
  have hsafe := h.safe artifact hartifact
  rw [hempty] at hsafe
  cases hsafe

/-- One more artifact can only conflict with an earlier one, which is in front of it. -/
theorem conflictFree_snoc_iff {artifacts : List Artifact} {artifact : Artifact}
    (h : Canonical (artifacts ++ [artifact])) :
    ConflictFree (artifacts ++ [artifact]) ↔ ConflictFree artifacts ∧
      directoryConflict (InventoryState.after artifacts).names []
        (components artifact.logicalPath) = false := by
  have hartifacts := (canonical_snoc_iff.mp h).1
  have hnone : directoryConflict (InventoryState.after artifacts).names []
      (components artifact.logicalPath) = false ↔
        ∀ other ∈ artifacts, ¬ ComponentPrefix other.logicalPath artifact.logicalPath := by
    rw [← Bool.not_eq_true, InventoryState.after, directoryConflict_eq_pathConflict
      (not_mem_nil_names hartifacts) (h.safe _ (by simp)), pathConflict_iff]
    simp
  rw [hnone]
  constructor
  · intro hfree
    exact ⟨fun a ha b hb => hfree a (List.mem_append_left _ ha) b (List.mem_append_left _ hb),
      fun a ha => hfree a (List.mem_append_left _ ha) artifact (by simp)⟩
  · rintro ⟨hfree, hlast⟩ a ha b hb
    have hascending := h.ascending
    rw [List.map_append, List.pairwise_append] at hascending
    rcases List.mem_append.mp ha with hfirst | hfirst
    · rcases List.mem_append.mp hb with hsecond | hsecond
      · exact hfree a hfirst b hsecond
      · obtain rfl := List.mem_singleton.mp hsecond
        exact hlast a hfirst
    · obtain rfl := List.mem_singleton.mp hfirst
      intro hconflict
      rcases List.mem_append.mp hb with hsecond | hsecond
      · exact absurd hconflict.lt (not_lt.mpr (hascending.2.2 _ (List.mem_map_of_mem hsecond) _
          List.mem_cons_self).le)
      · obtain rfl := List.mem_singleton.mp hsecond
        exact hconflict.2 rfl

/-- The sizes of as many artifacts as a release may have can be added up. -/
theorem Canonical.total_le {artifacts : List Artifact} (h : Canonical artifacts)
    (hlength : artifacts.length ≤ ARTIFACT_LIMIT) :
    (artifacts.map Artifact.sizeBytes).sum ≤ U64_MAX := by
  have hsum := List.sum_le_card_nsmul (artifacts.map Artifact.sizeBytes) FILE_LIMIT fun size hsize => by
    obtain ⟨artifact, hmem, rfl⟩ := List.mem_map.mp hsize
    exact h.size artifact hmem
  rw [List.length_map] at hsum
  change _ ≤ artifacts.length * FILE_LIMIT at hsum
  have hmul := Nat.mul_le_mul_right FILE_LIMIT hlength
  refine hsum.trans (hmul.trans ?_)
  simp [ARTIFACT_LIMIT, FILE_LIMIT, U64_MAX]

/-- **The pass** over a canonical list finds a conflict exactly if there is one. -/
theorem inventoryPass_eq {artifacts : List Artifact} (h : Canonical artifacts)
    (htotal : (artifacts.map Artifact.sizeBytes).sum ≤ U64_MAX) :
    inventoryPass artifacts = if ConflictFree artifacts then .ok (.after artifacts)
      else .error "file/directory path conflict" := by
  induction artifacts using List.reverseRecOn with
  | nil => rw [if_pos nofun]; rfl
  | append_singleton artifacts artifact ih =>
    obtain ⟨hartifacts, hchecks⟩ := canonical_snoc_iff.mp h
    have hsum : ((artifacts ++ [artifact]).map Artifact.sizeBytes).sum =
        (artifacts.map Artifact.sizeBytes).sum + artifact.sizeBytes := by simp
    rw [hsum] at htotal
    rw [inventoryPass_snoc, ih hartifacts ((Nat.le_add_right _ _).trans htotal)]
    by_cases hfree : ConflictFree artifacts
    · rw [if_pos hfree]
      change inventoryStep (.after artifacts) artifacts.length artifact = _
      rw [inventoryStep, bailIf_of_not hchecks]
      by_cases hconflict : directoryConflict (InventoryState.after artifacts).names []
          (components artifact.logicalPath) = true
      · have hrefused (message : String) : bailIf (directoryConflict
            (InventoryState.after artifacts).names [] (components artifact.logicalPath) = true)
            message = .error message := if_pos hconflict
        rw [hrefused, if_neg fun hall => absurd hconflict
          (Bool.eq_false_iff.mp ((conflictFree_snoc_iff h).mp hall).2)]
        rfl
      · rw [bailIf_of_not hconflict, if_pos ((conflictFree_snoc_iff h).mpr
          ⟨hfree, Bool.eq_false_iff.mpr hconflict⟩)]
        change bailIf (U64_MAX < (artifacts.map Artifact.sizeBytes).sum + artifact.sizeBytes) _ >>= _ = _
        rw [bailIf_of_not (not_lt.mpr htotal)]
        simp [InventoryState.after]
    · rw [if_neg hfree, if_neg fun hall => hfree ((conflictFree_snoc_iff h).mp hall).1]
      rfl

/-- A list that passes is canonical. -/
theorem canonical_of_inventoryPass {artifacts : List Artifact} {state : InventoryState}
    (h : inventoryPass artifacts = .ok state) :
    Canonical artifacts ∧ ConflictFree artifacts ∧ state = .after artifacts := by
  induction artifacts using List.reverseRecOn generalizing state with
  | nil => exact ⟨canonical_nil, nofun, (Except.ok.inj h).symm⟩
  | append_singleton artifacts artifact ih =>
    rw [inventoryPass_snoc] at h
    obtain ⟨before, hbefore, h⟩ := exists_of_bind_ok h
    obtain ⟨hartifacts, hfree, rfl⟩ := ih hbefore
    obtain ⟨u, hchecks, h⟩ := exists_of_bind_ok h
    obtain ⟨u', hconflict, h⟩ := exists_of_bind_ok h
    obtain ⟨u'', -, h⟩ := exists_of_bind_ok h
    have hcanonical := canonical_snoc_iff.mpr ⟨hartifacts, not_of_bailIf_ok hchecks⟩
    refine ⟨hcanonical, (conflictFree_snoc_iff hcanonical).mpr
      ⟨hfree, Bool.eq_false_iff.mpr (not_of_bailIf_ok hconflict)⟩, ?_⟩
    rw [← Except.ok.inj h]
    simp [InventoryState.after]

theorem not_conflictFree_iff {artifacts : List Artifact} : ¬ ConflictFree artifacts ↔
    ∃ artifact ∈ artifacts, ∃ other ∈ artifacts,
      ComponentPrefix artifact.logicalPath other.logicalPath := by
  rw [ConflictFree]
  push Not
  rfl

/-- A list in which the pass finds a conflict has one. -/
theorem not_conflictFree_of_inventoryPass {artifacts : List Artifact}
    (h : inventoryPass artifacts = .error "file/directory path conflict") :
    ¬ ConflictFree artifacts := by
  induction artifacts using List.reverseRecOn with
  | nil => cases h
  | append_singleton artifacts artifact ih =>
    rw [inventoryPass_snoc, bind_eq_error_iff] at h
    rcases h with h | ⟨state, hpass, h⟩
    · exact fun hall => ih h fun a ha b hb =>
        hall a (List.mem_append_left _ ha) b (List.mem_append_left _ hb)
    · obtain ⟨hartifacts, hfree, rfl⟩ := canonical_of_inventoryPass hpass
      rw [inventoryStep, bind_eq_error_iff, bailIf_eq_error_iff] at h
      rcases h with ⟨-, hmessage⟩ | ⟨u, hchecks, h⟩
      · exact absurd hmessage (by decide)
      rw [bind_eq_error_iff, bailIf_eq_error_iff] at h
      rcases h with ⟨hconflict, -⟩ | ⟨u', -, h⟩
      · intro hall
        have hcanonical := canonical_snoc_iff.mpr ⟨hartifacts, not_of_bailIf_ok hchecks⟩
        exact Bool.eq_false_iff.mp ((conflictFree_snoc_iff hcanonical).mp hall).2 hconflict
      · rw [bind_eq_error_iff, bailIf_eq_error_iff] at h
        rcases h with ⟨-, hmessage⟩ | ⟨u'', -, h⟩
        · exact absurd hmessage (by decide)
        · cases h

/-! ### The validators agree -/

theorem isAscii_of_hexDigits {value : Text} (h : value.all isHexDigit = true) :
    isAscii value = true := by
  rw [isAscii, List.all_eq_true]
  intro c hc
  have hdigit := List.all_eq_true.mp h c hc
  simp only [isHexDigit, Bool.or_eq_true, Bool.and_eq_true, decide_eq_true_iff] at hdigit
  rw [decide_eq_true_iff]
  rcases hdigit with ⟨-, hle⟩ | ⟨-, hle⟩
  · exact UInt32.lt_of_le_of_lt (Char.le_def.mp hle) (by decide)
  · exact UInt32.lt_of_le_of_lt (Char.le_def.mp hle) (by decide)

theorem hex_eq_hexPattern (value : Text) (size : ℕ) : hex value size = hexPattern value size := by
  rw [hex, hexPattern]
  by_cases hdigits : value.all isHexDigit = true
  · rw [byteLength_of_isAscii (isAscii_of_hexDigits hdigits)]
  · rw [Bool.not_eq_true] at hdigits
    rw [hdigits, Bool.and_false, Bool.and_false]

/-- The tool's comparison with the sorted set is the host's comparison of neighbours. -/
theorem eq_sortedSet_iff {names : List Text} :
    names = sortedSet names ↔ names.Pairwise (· < ·) := by
  constructor
  · intro h
    have hsorted : (sortedSet names).Pairwise (· ≤ ·) := List.pairwise_insertionSort (· ≤ ·) _
    have hnodup : (sortedSet names).Nodup :=
      (List.perm_insertionSort (· ≤ ·) _).nodup_iff.mpr (List.nodup_dedup names)
    rw [← h] at hsorted hnodup
    exact (hsorted.and hnodup).imp fun hpair => lt_of_le_of_ne hpair.1 hpair.2
  · intro h
    have hnodup : names.Nodup := h.imp fun hlt => hlt.ne
    rw [sortedSet, hnodup.dedup]
    exact ((h.imp fun hlt => hlt.le).insertionSort_eq).symm

/-- The tool finds a conflict in a list that is in order exactly if there is one. -/
theorem exactInventory_conflict_iff {value : ToolManifest} (h : Canonical value.artifacts) :
    exactInventory value = .error "file/directory logical path conflict" ↔
      ¬ ConflictFree value.artifacts := by
  have hname : ∀ indexed ∈ value.artifacts.zipIdx,
      ¬ indexed.1.filename ≠ artifactFilename indexed.2 := by
    rintro indexed hmem hne
    exact hne (h.filename _ _ (List.mem_zipIdx_iff_getElem?.mp hmem))
  have hfound : (∃ indexed ∈ value.artifacts.zipIdx,
      pathConflict (value.artifacts.map Artifact.logicalPath) indexed.1.logicalPath = true) ↔
        ¬ ConflictFree value.artifacts := by
    simp only [not_conflictFree_iff, pathConflict_iff, List.mem_map, ↓existsAndEq, and_true]
    constructor
    · rintro ⟨indexed, hmem, artifact, hartifact, hunder⟩
      exact ⟨artifact, hartifact, indexed.1, List.fst_mem_of_mem_zipIdx hmem, hunder⟩
    · rintro ⟨artifact, hartifact, other, hother, hunder⟩
      obtain ⟨index, hindex⟩ := List.mem_iff_getElem?.mp hother
      exact ⟨(other, index), List.mk_mem_zipIdx_iff_getElem?.mpr hindex, artifact, hartifact, hunder⟩
  have hloop : (value.artifacts.zipIdx.forM fun indexed => do
      bailIf (indexed.1.filename ≠ artifactFilename indexed.2)
        "noncanonical flat inventory filename"
      bailIf (pathConflict (value.artifacts.map Artifact.logicalPath) indexed.1.logicalPath)
        "file/directory logical path conflict") =
          .error "file/directory logical path conflict" ↔ ¬ ConflictFree value.artifacts := by
    rw [← hfound, forM_eq_error_iff]
    · refine exists_congr fun indexed => and_congr_right fun hmem => ?_
      rw [bailIf_of_not (hname indexed hmem)]
      exact bailIf_eq_error_iff.trans (and_iff_left rfl)
    · intro indexed hmem
      rw [bailIf_of_not (hname indexed hmem)]
      by_cases hconflict : pathConflict (value.artifacts.map Artifact.logicalPath)
          indexed.1.logicalPath = true
      · exact .inr (bailIf_of hconflict)
      · exact .inl (bailIf_of_not hconflict)
  constructor
  · intro herror
    rw [exactInventory, bind_eq_error_iff, bailIf_eq_error_iff] at herror
    rcases herror with ⟨-, hmessage⟩ | ⟨u, -, herror⟩
    · exact absurd hmessage (by decide)
    rw [bind_eq_error_iff] at herror
    rcases herror with herror | ⟨u₁, -, herror⟩
    · exact hloop.mp herror
    rw [bind_eq_error_iff, bailIf_eq_error_iff] at herror
    rcases herror with ⟨-, hmessage⟩ | ⟨u₂, -, herror⟩
    · exact absurd hmessage (by decide)
    rw [bind_eq_error_iff, bailIf_eq_error_iff, bailIf_eq_error_iff] at herror
    rcases herror with ⟨-, hmessage⟩ | ⟨u₃, -, -, hmessage⟩
    · exact absurd hmessage (by decide)
    · exact absurd hmessage (by decide)
  · intro hconflict
    refine bind_eq_error_iff.mpr (.inr ⟨(), bailIf_of_not (not_not.mpr
      (eq_sortedSet_iff.mpr h.ascending)), ?_⟩)
    exact bind_eq_error_iff.mpr (.inl (hloop.mpr hconflict))

theorem length_zeroPadded {width : ℕ} {digits : List Char} (h : digits.length ≤ width) :
    (zeroPadded width digits).length = width := by
  rw [zeroPadded, List.length_append, List.length_replicate]
  omega

theorem isDigit_zeroPadded (width : ℕ) {base : ℕ} (hpos : 0 < base) (hbase : base ≤ 10) (number : ℕ) :
    (zeroPadded width (Nat.toDigits base number)).all Char.isDigit = true := by
  rw [List.all_eq_true]
  intro c hc
  rcases List.mem_append.mp hc with hc | hc
  · obtain ⟨-, rfl⟩ := List.mem_replicate.mp hc
    rfl
  · exact Nat.isDigit_of_mem_toDigits hpos hbase hc

/-- The flat names that the validators require fit the pattern. -/
theorem filenamePattern_artifactFilename {index : ℕ} (h : index < ARTIFACT_LIMIT) :
    filenamePattern (artifactFilename index) = true := by
  have hdigits : (Nat.toDigits 10 index).length ≤ 6 := by
    rw [Nat.length_toDigits_le_iff (by decide) (by decide)]
    exact h.trans (by decide)
  have hlength := length_zeroPadded hdigits
  have hall : (zeroPadded 6 (Nat.toDigits 10 index)).all Char.isDigit = true :=
    isDigit_zeroPadded 6 (by decide) (by decide) index
  have hname : artifactFilename index =
      "artifact-".toList ++ (zeroPadded 6 (Nat.toDigits 10 index) ++ ".bin".toList) :=
    List.append_assoc _ _ _
  have hstart : "artifact-".toList.length = 9 := rfl
  generalize zeroPadded 6 (Nat.toDigits 10 index) = number at hlength hall hname
  have htake : (artifactFilename index).take 9 = "artifact-".toList := by
    rw [hname, List.take_left' hstart]
  have hdrop : (artifactFilename index).drop 9 = number ++ ".bin".toList := by
    rw [hname, List.drop_left' hstart]
  have hend : (artifactFilename index).drop 15 = ".bin".toList := by
    rw [show 15 = 9 + 6 from rfl, ← List.drop_drop, hdrop, List.drop_left' hlength]
  have hsize : (artifactFilename index).length = 19 := by
    rw [hname, List.length_append, List.length_append, hlength]
    rfl
  rw [filenamePattern, hsize, htake, hdrop, hend, List.take_left' hlength, hall]
  simp

/-- What both validators require of the fields outside the list of artifacts. -/
def Identified (value : ManifestFields) (archive : ArchiveIdentity) : Prop :=
  ¬ (value.schemaVersion ≠ 5 ∨ value.protocol ≠ "layered-accuracy-v1".toList ∨
      value.productVersion ≠ "v0.2.0".toList ∨ value.goldenVersion ≠ "goldens-v0.2".toList ∨
      archive.filename ≠ "goldens-v0.2.tar.gz".toList ∨
      hex archive.sha256 64 = false ∨ hex value.source.commit 40 = false ∨
      hex value.source.tree 40 = false ∨ hex value.registrySha256 64 = false ∨
      hex value.policySha256 64 = false ∨ hex value.definitionIndexBlob 40 = false ∨
      value.artifacts = [] ∨ ARTIFACT_LIMIT < value.artifacts.length)

/-- What both validators require. -/
structure Accepted (value : ManifestFields) (archive : ArchiveIdentity) : Prop where
  identified : Identified value archive
  canonical : Canonical value.artifacts
  conflictFree : ConflictFree value.artifacts
  total : (value.artifacts.map Artifact.sizeBytes).sum ≤ TOTAL_LIMIT
  entrypoints : ¬ ∃ path ∈ value.entrypoints.paths,
    path ∉ value.artifacts.map Artifact.logicalPath

theorem Identified.length_le {value : ManifestFields} {archive : ArchiveIdentity}
    (h : Identified value archive) : value.artifacts.length ≤ ARTIFACT_LIMIT := by
  simp only [Identified, not_or, not_lt] at h
  exact h.2.2.2.2.2.2.2.2.2.2.2.2

/-- What the host accepts. -/
theorem parseManifest_eq_ok_iff {value value' : ReleaseManifest} :
    parseManifest value = .ok value' ↔
      Accepted value.toManifestFields value.archive ∧ value' = value := by
  constructor
  · intro h
    obtain ⟨u, hidentified, h⟩ := exists_of_bind_ok h
    obtain ⟨state, hpass, h⟩ := exists_of_bind_ok h
    obtain ⟨hcanonical, hfree, rfl⟩ := canonical_of_inventoryPass hpass
    obtain ⟨u', htotal, h⟩ := exists_of_bind_ok h
    obtain ⟨u'', hentry, h⟩ := exists_of_bind_ok h
    exact ⟨⟨not_of_bailIf_ok hidentified, hcanonical, hfree, not_lt.mp (not_of_bailIf_ok htotal),
      not_of_bailIf_ok hentry⟩, (Except.ok.inj h).symm⟩
  · rintro ⟨h, rfl⟩
    have hpass := inventoryPass_eq h.canonical (h.canonical.total_le h.identified.length_le)
    rw [if_pos h.conflictFree] at hpass
    rw [parseManifest, bailIf_of_not h.identified, hpass]
    change bailIf (TOTAL_LIMIT < (value'.artifacts.map Artifact.sizeBytes).sum) _ >>= _ = _
    rw [bailIf_of_not (not_lt.mpr h.total)]
    change bailIf (∃ path ∈ value'.entrypoints.paths,
      path ∉ value'.artifacts.map Artifact.logicalPath) _ >>= _ = _
    rw [bailIf_of_not h.entrypoints]
    rfl

theorem exactInventory_isOk_iff {value : ToolManifest} :
    (exactInventory value).isOk = true ↔
      (value.artifacts.map Artifact.logicalPath).Pairwise (· < ·) ∧
        (∀ index artifact, value.artifacts[index]? = some artifact →
          artifact.filename = artifactFilename index ∧
            pathConflict (value.artifacts.map Artifact.logicalPath) artifact.logicalPath = false) ∧
        (value.artifacts.map Artifact.sizeBytes).sum ≤ TOTAL_LIMIT ∧
        (¬ ∃ path ∈ value.entrypoints.paths, path ∉ value.artifacts.map Artifact.logicalPath) ∧
        ¬ ∃ count ∈ value.counts, ¬ (0 ≤ count.2 ∧ count.2 ≤ 2 ^ 64 - 1) := by
  have hloop : (value.artifacts.zipIdx.forM fun indexed => do
      bailIf (indexed.1.filename ≠ artifactFilename indexed.2)
        "noncanonical flat inventory filename"
      bailIf (pathConflict (value.artifacts.map Artifact.logicalPath) indexed.1.logicalPath)
        "file/directory logical path conflict") = .ok () ↔
      ∀ index artifact, value.artifacts[index]? = some artifact →
        artifact.filename = artifactFilename index ∧
          pathConflict (value.artifacts.map Artifact.logicalPath) artifact.logicalPath = false := by
    rw [forM_eq_ok_iff, Prod.forall, forall_comm]
    refine forall₂_congr fun index artifact => ?_
    rw [List.mk_mem_zipIdx_iff_getElem?]
    refine imp_congr_right fun _ => ?_
    rw [bind_eq_ok_iff]
    constructor
    · rintro ⟨u, hname, hconflict⟩
      exact ⟨not_not.mp (not_of_bailIf_ok hname),
        Bool.eq_false_iff.mpr (not_of_bailIf_ok hconflict)⟩
    · rintro ⟨hname, hconflict⟩
      exact ⟨(), bailIf_of_not (not_not.mpr hname), bailIf_of_not (Bool.eq_false_iff.mp hconflict)⟩
  constructor
  · intro h
    obtain ⟨u, hok⟩ := exists_of_isOk h
    obtain ⟨u₁, hsorted, hok⟩ := exists_of_bind_ok hok
    obtain ⟨u₂, hartifacts, hok⟩ := exists_of_bind_ok hok
    obtain ⟨u₃, htotal, hok⟩ := exists_of_bind_ok hok
    obtain ⟨u₄, hentry, hcounts⟩ := exists_of_bind_ok hok
    exact ⟨eq_sortedSet_iff.mp (not_not.mp (not_of_bailIf_ok hsorted)), hloop.mp hartifacts,
      not_lt.mp (not_of_bailIf_ok htotal), not_of_bailIf_ok hentry, not_of_bailIf_ok hcounts⟩
  · rintro ⟨hsorted, hartifacts, htotal, hentry, hcounts⟩
    have hok : exactInventory value = .ok () := by
      refine bind_eq_ok_iff.mpr ⟨(), bailIf_of_not (not_not.mpr (eq_sortedSet_iff.mpr hsorted)), ?_⟩
      refine bind_eq_ok_iff.mpr ⟨(), hloop.mpr hartifacts, ?_⟩
      refine bind_eq_ok_iff.mpr ⟨(), bailIf_of_not (not_lt.mpr htotal), ?_⟩
      exact bind_eq_ok_iff.mpr ⟨(), bailIf_of_not hentry, bailIf_of_not hcounts⟩
    rw [hok]
    rfl

theorem fieldsValid_iff {value : ToolManifest} {archive : ArchiveIdentity}
    (harchive : value.archive = some archive) : value.fieldsValid = true ↔
      Identified value.toManifestFields archive ∧
        ∀ artifact ∈ value.artifacts, artifact.fieldsValid = true := by
  rw [ToolManifest.fieldsValid, Bool.and_eq_true, List.all_eq_true]
  refine and_congr_left fun _ => ?_
  simp only [Identified, harchive, Option.all_some, ArchiveIdentity.fieldsValid, hex_eq_hexPattern,
    Bool.and_eq_true, decide_eq_true_iff, not_or, ne_eq, not_not, Bool.not_eq_false, not_lt,
    Nat.one_le_iff_ne_zero, List.length_eq_zero_iff, and_assoc]

theorem artifact_fieldsValid_iff {artifact : Artifact} {index : ℕ} (h : index < ARTIFACT_LIMIT)
    (hname : artifact.filename = artifactFilename index) :
    artifact.fieldsValid = true ↔ safePath artifact.logicalPath = true ∧
      hex artifact.sha256 64 = true ∧ artifact.sizeBytes ≤ FILE_LIMIT := by
  have hpath : (Release.logicalPath artifact.logicalPath).isOk = true ↔
      safePath artifact.logicalPath = true := by
    rw [safePath_iff_logicalPath]
    constructor
    · intro hok
      obtain ⟨path, hpath⟩ := exists_of_isOk hok
      rw [Release.logicalPath] at hpath ⊢
      split at hpath
      · cases hpath
      · rename_i hsafe
        rw [if_neg hsafe]
    · intro hok
      rw [hok]
      rfl
  rw [Artifact.fieldsValid, hname, filenamePattern_artifactFilename h, hex_eq_hexPattern]
  simp only [Bool.true_and, Bool.and_eq_true, decide_eq_true_iff, hpath]
  tauto

/-- What the tool accepts. -/
theorem modelValidates_iff {value : ToolManifest} {archive : ArchiveIdentity}
    (harchive : value.archive = some archive) : modelValidates value = true ↔
      Accepted value.toManifestFields archive ∧
        ¬ ∃ count ∈ value.counts, ¬ (0 ≤ count.2 ∧ count.2 ≤ 2 ^ 64 - 1) := by
  rw [modelValidates, Bool.and_eq_true, fieldsValid_iff harchive, exactInventory_isOk_iff]
  have hindex {index : ℕ} {artifact : Artifact}
      (hidentified : Identified value.toManifestFields archive)
      (hget : value.artifacts[index]? = some artifact) : index < ARTIFACT_LIMIT :=
    (List.getElem?_eq_some_iff.mp hget).1.trans_le hidentified.length_le
  constructor
  · rintro ⟨⟨hidentified, hfields⟩, hsorted, hartifacts, htotal, hentry, hcounts⟩
    have hvalid {artifact : Artifact} (hmem : artifact ∈ value.artifacts) :
        safePath artifact.logicalPath = true ∧ hex artifact.sha256 64 = true ∧
          artifact.sizeBytes ≤ FILE_LIMIT := by
      obtain ⟨index, hget⟩ := List.mem_iff_getElem?.mp hmem
      exact (artifact_fieldsValid_iff (hindex hidentified hget) (hartifacts index artifact hget).1).mp
        (hfields artifact hmem)
    refine ⟨⟨hidentified, ⟨fun a ha => (hvalid ha).1, hsorted,
      fun index a ha => (hartifacts index a ha).1, fun a ha => (hvalid ha).2.1,
      fun a ha => (hvalid ha).2.2⟩, fun a ha b hb hconflict => ?_, htotal, hentry⟩, hcounts⟩
    obtain ⟨index, hget⟩ := List.mem_iff_getElem?.mp hb
    have hnone := Bool.eq_false_iff.mp (hartifacts index b hget).2
    exact hnone (pathConflict_iff.mpr ⟨_, List.mem_map_of_mem ha, hconflict⟩)
  · rintro ⟨h, hcounts⟩
    refine ⟨⟨h.identified, fun a ha => ?_⟩, h.canonical.ascending, fun index a hget => ?_,
      h.total, h.entrypoints, hcounts⟩
    · obtain ⟨index, hget⟩ := List.mem_iff_getElem?.mp ha
      exact (artifact_fieldsValid_iff (hindex h.identified hget)
        (h.canonical.filename index a hget)).mpr
          ⟨h.canonical.safe a ha, h.canonical.sha256 a ha, h.canonical.size a ha⟩
    · refine ⟨h.canonical.filename index a hget, Bool.eq_false_iff.mpr fun hconflict => ?_⟩
      obtain ⟨file, hfile, hbelow⟩ := pathConflict_iff.mp hconflict
      obtain ⟨b, hb, rfl⟩ := List.mem_map.mp hfile
      exact h.conflictFree b hb a (List.mem_of_getElem? hget) hbelow

/-- The counts of the host are in the range that the tool checks. -/
theorem ReleaseManifest.counts_asTool (value : ReleaseManifest) :
    ¬ ∃ count ∈ value.asTool.counts, ¬ (0 ≤ count.2 ∧ count.2 ≤ 2 ^ 64 - 1) := by
  rintro ⟨count, hmem, hnot⟩
  obtain ⟨count, -, rfl⟩ := List.mem_map.mp hmem
  have hlt := count.2.toNat_lt
  dsimp only at hnot
  omega

/-- A manifest of the tool with an archive and counts in range is one of the host. -/
theorem ToolManifest.exists_asTool {value : ToolManifest} {archive : ArchiveIdentity}
    (harchive : value.archive = some archive)
    (hcounts : ¬ ∃ count ∈ value.counts, ¬ (0 ≤ count.2 ∧ count.2 ≤ 2 ^ 64 - 1)) :
    ∃ host : ReleaseManifest, host.asTool = value := by
  obtain ⟨fields, counts, _⟩ := value
  obtain rfl := harchive
  have hback : ∀ count ∈ counts, (count.1, ((UInt64.ofNat count.2.toNat).toNat : ℤ)) = count := by
    intro count hmem
    have hrange : 0 ≤ count.2 ∧ count.2 ≤ 2 ^ 64 - 1 :=
      not_not.mp fun hnot => hcounts ⟨count, hmem, hnot⟩
    have hlt : count.2.toNat < 2 ^ 64 := by omega
    rw [UInt64.toNat_ofNat_of_lt' hlt, Int.toNat_of_nonneg hrange.1]
  refine ⟨⟨fields, counts.map fun count => (count.1, UInt64.ofNat count.2.toNat), archive⟩, ?_⟩
  have hcounts' : (counts.map fun count => (count.1, UInt64.ofNat count.2.toNat)).map
      (fun count => (count.1, (count.2.toNat : ℤ))) = counts :=
    (List.map_map ..).trans ((List.map_congr_left hback).trans (List.map_id' _))
  exact congrArg (ToolManifest.mk fields · (some archive)) hcounts'

/-- **The validators** of the host and of the tool accept the same manifests. -/
theorem parseManifest_isOk_iff (value : ReleaseManifest) :
    (parseManifest value).isOk = true ↔ modelValidates value.asTool = true := by
  rw [modelValidates_iff rfl, and_iff_left value.counts_asTool]
  constructor
  · intro h
    obtain ⟨value', hok⟩ := exists_of_isOk h
    exact (parseManifest_eq_ok_iff.mp hok).1
  · intro h
    rw [parseManifest_eq_ok_iff.mpr ⟨h, rfl⟩]
    rfl

/-- What the tool reads is what the host accepts. -/
theorem readsManifest_iff (value : ToolManifest) : readsManifest value = true ↔
    ∃ host : ReleaseManifest, host.asTool = value ∧ (parseManifest host).isOk = true := by
  rw [readsManifest, Bool.and_eq_true]
  constructor
  · rintro ⟨hvalid, hsome⟩
    obtain ⟨archive, harchive⟩ := Option.isSome_iff_exists.mp hsome
    obtain ⟨host, rfl⟩ := ToolManifest.exists_asTool harchive ((modelValidates_iff harchive).mp hvalid).2
    exact ⟨host, rfl, (parseManifest_isOk_iff host).mpr hvalid⟩
  · rintro ⟨host, rfl, hok⟩
    exact ⟨(parseManifest_isOk_iff host).mp hok, rfl⟩

end VllmOxide.Release
