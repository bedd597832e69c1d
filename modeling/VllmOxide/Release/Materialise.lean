import VllmOxide.Library.FileTree
import VllmOxide.Release.Inventory

/-!
# The files of an installed release

The artifacts of an accepted manifest become files below the `evidence` directory of a stage, in the
order of the list, each one after the directories above it. No file is in the way, because no path is
a directory of another one, and no path leaves the directory. The files and the directories that are
there at the end are the ones that the final check of the tree expects.

## Main definitions

* `target`, `materialise`: the files that the installer creates.
* `expectedFiles`, `expectedDirectories`: the sets that the final check of the tree builds.
* `FreshStage`: a stage that was just created.

## Main results

* `materialise_ok`: creating the files succeeds.
* `inventory_materialisable`: the checks find the conflicts, and what they accept can be installed.
-/

namespace VllmOxide.Release

variable {C : Type}

/-- `target`: the place of an artifact. -/
def target (stage : List Text) (artifact : Artifact) : List Text :=
  joinPath (joinPath stage "evidence".toList) artifact.logicalPath

/-- The files that the installer creates: the artifacts with their payloads, and the manifest. -/
def materialise (tree : FileTree Text C) (stage : List Text) (payload : Artifact → C) (bytes : C)
    (artifacts : List Artifact) : Except String (FileTree Text C) := do
  let tree ← tree.createFiles
    (artifacts.map fun artifact => (target stage artifact, payload artifact))
  tree.write (joinPath stage "manifest.json".toList) bytes

/-- `expected`, of `verify_tree`. -/
def expectedFiles (artifacts : List Artifact) : List Text :=
  "manifest.json".toList :: artifacts.map fun artifact => "evidence/".toList ++ artifact.logicalPath

/-- `directories`, of `verify_tree`: the ancestors of the artifacts, without the artifacts and without
the empty path. -/
def expectedDirectories (artifacts : List Artifact) : List (List Text) :=
  artifacts.flatMap fun artifact =>
    ((joinPath ["evidence".toList] artifact.logicalPath).inits.reverse.drop 1).filter (· ≠ [])

/-- A stage that was just created. -/
structure FreshStage (tree : FileTree Text C) (stage : List Text) : Prop where
  directories : ∀ above, above <+: stage → tree above = some .directory
  empty : ∀ path, path ≠ [] → tree (stage ++ path) = none

/-- The place of an artifact in the stage. -/
def installed (artifact : Artifact) : List Text :=
  "evidence".toList :: components artifact.logicalPath

theorem target_eq {artifact : Artifact} (h : safePath artifact.logicalPath = true)
    (stage : List Text) : target stage artifact = stage ++ installed artifact := by
  have hevidence : joinPath stage "evidence".toList = stage ++ ["evidence".toList] :=
    (joinPath_eq (by decide) stage).1
  rw [target, hevidence, (joinPath_eq h _).1, List.append_assoc]
  rfl

/-- The places of two artifacts are apart if neither is a directory of the other one. -/
theorem apart_installed {artifacts : List Artifact} (h : Canonical artifacts)
    (hfree : ConflictFree artifacts) (stage : List Text) (payload : Artifact → C) :
    FileTree.Apart (artifacts.map fun artifact => (stage ++ installed artifact, payload artifact)) := by
  have hascending := List.pairwise_map.mp h.ascending
  have hnot {a b : Artifact} (ha : a ∈ artifacts) (hb : b ∈ artifacts)
      (hne : a.logicalPath ≠ b.logicalPath) :
      ¬ stage ++ installed a <+: stage ++ installed b := by
    rw [List.prefix_append_right_inj, installed, installed, List.cons_prefix_cons, not_and]
    exact fun _ hunder => hfree a ha b hb ⟨hunder, hne⟩
  rw [FileTree.Apart, List.pairwise_map]
  exact hascending.imp_of_mem fun ha hb hlt => ⟨hnot ha hb hlt.ne, hnot hb ha hlt.ne'⟩

theorem FreshStage.free {tree : FileTree Text C} {stage : List Text} (h : FreshStage tree stage)
    (path : List Text) : tree.Free (stage ++ path) := by
  intro above habove
  rcases List.prefix_or_prefix_of_prefix habove (List.prefix_append stage path) with
    hstage | ⟨rest, rfl⟩
  · exact .inr (h.directories above hstage)
  · rcases eq_or_ne rest [] with rfl | hne
    · exact .inr (h.directories _ (by rw [List.append_nil]))
    · exact .inl (h.empty rest hne)

/-- **The artifacts are created**, one after another. -/
theorem createArtifacts_eq {tree : FileTree Text C} {stage : List Text} {artifacts : List Artifact}
    (h : Canonical artifacts) (hfree : ConflictFree artifacts) (hstage : FreshStage tree stage)
    (payload : Artifact → C) :
    tree.createFiles (artifacts.map fun artifact => (target stage artifact, payload artifact)) =
      .ok (tree.withFiles
        (artifacts.map fun artifact => (stage ++ installed artifact, payload artifact))) := by
  have htarget : (artifacts.map fun artifact => (target stage artifact, payload artifact)) =
      artifacts.map fun artifact => (stage ++ installed artifact, payload artifact) :=
    List.map_congr_left fun artifact hmem => by rw [target_eq (h.safe artifact hmem)]
  rw [htarget]
  refine FileTree.createFiles_eq (apart_installed h hfree stage payload) (fun file hfile => ?_)
    (fun file hfile => ?_) fun file hfile => ?_
  all_goals
    obtain ⟨artifact, hmem, rfl⟩ := List.mem_map.mp hfile
  · exact List.append_ne_nil_of_right_ne_nil _ (List.cons_ne_nil _ _)
  · exact hstage.free _
  · exact hstage.empty _ (List.cons_ne_nil _ _)

/-- What is in the stage at the end: the manifest, the artifacts, and the directories above them. -/
structure Installed (tree tree' : FileTree Text C) (stage : List Text) (payload : Artifact → C)
    (bytes : C) (artifacts : List Artifact) : Prop where
  manifest : tree' (stage ++ ["manifest.json".toList]) = some (.file bytes)
  artifact : ∀ artifact ∈ artifacts, tree' (target stage artifact) = some (.file (payload artifact))
  inside : ∀ artifact ∈ artifacts, stage ++ ["evidence".toList] <+: target stage artifact
  outside : ∀ path, ¬ stage <+: path → tree' path = tree path
  files : ∀ path, (∃ content, tree' (stage ++ path) = some (.file content)) ↔
    ∃ name ∈ expectedFiles artifacts, path = components name
  directories : ∀ path, path ≠ [] →
    (tree' (stage ++ path) = some .directory ↔ path ∈ expectedDirectories artifacts)

theorem components_evidence (path : Text) :
    components ("evidence/".toList ++ path) = "evidence".toList :: components path := by
  have hjoin : "evidence/".toList ++ path =
      joinComponents ("evidence".toList :: components path) := by
    obtain ⟨first, rest, hparts⟩ := List.exists_cons_of_ne_nil (components_ne_nil path)
    have hpath := joinComponents_components path
    rw [hparts, joinComponents] at hpath
    rw [hparts, joinComponents, List.intercalate_cons_cons, hpath]
    rfl
  rw [hjoin]
  refine components_joinComponents (fun part hpart => ?_) (List.cons_ne_nil _ _)
  rcases List.mem_cons.mp hpart with rfl | hpart
  · decide
  · exact slash_notMem_components hpart

theorem mem_expectedDirectories_iff {artifacts : List Artifact} (h : Canonical artifacts)
    {path : List Text} (hne : path ≠ []) : path ∈ expectedDirectories artifacts ↔
      ∃ artifact ∈ artifacts, path <+: installed artifact ∧ path ≠ installed artifact := by
  rw [expectedDirectories, List.mem_flatMap]
  refine exists_congr fun artifact => and_congr_right fun hmem => ?_
  rw [(joinPath_eq (h.safe artifact hmem) _).1, List.mem_filter, FileTree.mem_ancestors_iff]
  simp only [hne, ne_eq, not_false_eq_true, decide_true, and_true]
  rfl

/-- What is in the stage after the artifacts were created. -/
structure Staged (tree tree' : FileTree Text C) (stage : List Text) (payload : Artifact → C)
    (artifacts : List Artifact) : Prop where
  artifact : ∀ artifact ∈ artifacts,
    tree' (stage ++ installed artifact) = some (.file (payload artifact))
  inside : ∀ path, (∀ artifact ∈ artifacts, installed artifact ≠ path) → tree' (stage ++ path) =
    if ∃ artifact ∈ artifacts, path <+: installed artifact then some .directory
    else tree (stage ++ path)
  outside : ∀ path, ¬ stage <+: path → tree' path = tree path

theorem staged_withFiles {tree : FileTree Text C} {stage : List Text} {artifacts : List Artifact}
    (h : Canonical artifacts) (hfree : ConflictFree artifacts) (hstage : FreshStage tree stage)
    (payload : Artifact → C) :
    Staged tree (tree.withFiles
      (artifacts.map fun artifact => (stage ++ installed artifact, payload artifact)))
      stage payload artifacts := by
  set files := artifacts.map fun artifact => (stage ++ installed artifact, payload artifact)
  have hmem {artifact : Artifact} (ha : artifact ∈ artifacts) :
      (stage ++ installed artifact, payload artifact) ∈ files := List.mem_map_of_mem ha
  refine ⟨fun artifact ha => ?_, fun path hpath => ?_, fun path hpath => ?_⟩
  · exact FileTree.withFiles_of_mem (apart_installed h hfree stage payload) (hmem ha)
  · have hiff : (∃ file ∈ files, stage ++ path <+: file.1) ↔
        ∃ artifact ∈ artifacts, path <+: installed artifact := by
      constructor
      · rintro ⟨file, hfile, hunder⟩
        obtain ⟨artifact, ha, rfl⟩ := List.mem_map.mp hfile
        exact ⟨artifact, ha, (List.prefix_append_right_inj stage).mp hunder⟩
      · rintro ⟨artifact, ha, hunder⟩
        exact ⟨_, hmem ha, (List.prefix_append_right_inj stage).mpr hunder⟩
    rw [FileTree.withFiles_of_forall_ne]
    · simp only [hiff]
    · intro file hfile heq
      obtain ⟨artifact, ha, rfl⟩ := List.mem_map.mp hfile
      exact hpath artifact ha (List.append_cancel_left heq)
  · rw [FileTree.withFiles_of_forall_ne]
    · split
      · -- The path is above the stage, which is a directory.
        rename_i hbelow
        obtain ⟨file, hfile, hunder⟩ := hbelow
        obtain ⟨artifact, ha, rfl⟩ := List.mem_map.mp hfile
        rcases List.prefix_or_prefix_of_prefix hunder (List.prefix_append stage _) with
          habove | hstage'
        · exact (hstage.directories path habove).symm
        · exact absurd hstage' hpath
      · rfl
    · rintro file hfile rfl
      obtain ⟨artifact, ha, rfl⟩ := List.mem_map.mp hfile
      exact hpath (List.prefix_append _ _)

theorem manifest_not_prefix (artifact : Artifact) :
    ¬ ["manifest.json".toList] <+: installed artifact := by
  rw [installed, List.cons_prefix_cons]
  exact fun hboth => absurd hboth.1 (by decide)

theorem installed_ne_manifest (artifact : Artifact) :
    installed artifact ≠ ["manifest.json".toList] := by
  intro heq
  have hnot := manifest_not_prefix artifact
  rw [heq] at hnot
  exact hnot List.prefix_rfl

/-- What is at a path of the stage where there is neither an artifact nor a directory above one. -/
theorem Staged.empty {tree tree₁ : FileTree Text C} {stage : List Text} {payload : Artifact → C}
    {artifacts : List Artifact} (h : Staged tree tree₁ stage payload artifacts)
    (hstage : FreshStage tree stage) {path : List Text} (hne : path ≠ [])
    (hpath : ∀ artifact ∈ artifacts, ¬ path <+: installed artifact) :
    tree₁ (stage ++ path) = none := by
  have hfar : ∀ artifact ∈ artifacts, installed artifact ≠ path := fun artifact ha heq =>
    hpath artifact ha (heq ▸ List.prefix_rfl)
  rw [h.inside path hfar, if_neg, hstage.empty path hne]
  rintro ⟨artifact, ha, hunder⟩
  exact hpath artifact ha hunder

/-- What is at a path of the stage above an artifact. -/
theorem Staged.directory {tree tree₁ : FileTree Text C} {stage : List Text} {payload : Artifact → C}
    {artifacts : List Artifact} (h : Staged tree tree₁ stage payload artifacts)
    (hfree : ConflictFree artifacts) {path : List Text} {artifact : Artifact}
    (ha : artifact ∈ artifacts) (hunder : path <+: installed artifact)
    (hne : path ≠ installed artifact) : tree₁ (stage ++ path) = some .directory := by
  rw [h.inside, if_pos ⟨artifact, ha, hunder⟩]
  rintro other hother rfl
  rw [installed, installed, List.cons_prefix_cons] at hunder
  refine hfree other hother artifact ha ⟨hunder.2, fun heq => hne ?_⟩
  rw [installed, installed, heq]

/-- The stage with the manifest in it. -/
theorem Staged.installed {tree tree₁ : FileTree Text C} {stage : List Text} {payload : Artifact → C}
    {artifacts : List Artifact} (h : Staged tree tree₁ stage payload artifacts)
    (hcanonical : Canonical artifacts) (hfree : ConflictFree artifacts)
    (hstage : FreshStage tree stage) (bytes : C) :
    Installed tree (tree₁.set (stage ++ ["manifest.json".toList]) (.file bytes)) stage payload bytes
      artifacts := by
  have hname : components "manifest.json".toList = ["manifest.json".toList] := by decide
  have hset {path : List Text} (hpath : path ≠ ["manifest.json".toList]) :
      tree₁.set (stage ++ ["manifest.json".toList]) (.file bytes) (stage ++ path) =
        tree₁ (stage ++ path) :=
    if_neg fun heq => hpath (List.append_cancel_left heq)
  have hartifact {artifact : Artifact} (ha : artifact ∈ artifacts) :
      tree₁.set (stage ++ ["manifest.json".toList]) (.file bytes)
        (stage ++ Release.installed artifact) = some (.file (payload artifact)) := by
    rw [hset (installed_ne_manifest artifact), h.artifact artifact ha]
  refine ⟨if_pos rfl, fun artifact ha => ?_, fun artifact ha => ?_, fun path hpath => ?_,
    fun path => ?_, fun path hne => ?_⟩
  · rw [target_eq (hcanonical.safe artifact ha), hartifact ha]
  · rw [target_eq (hcanonical.safe artifact ha), List.prefix_append_right_inj, Release.installed]
    exact List.prefix_append ["evidence".toList] _
  · rw [FileTree.set, if_neg, h.outside path hpath]
    rintro rfl
    exact hpath (List.prefix_append _ _)
  · have hnames : (∃ name ∈ expectedFiles artifacts, path = components name) ↔
        path = ["manifest.json".toList] ∨ ∃ artifact ∈ artifacts, path = Release.installed artifact := by
      simp only [expectedFiles, List.mem_cons, List.mem_map, exists_eq_or_imp, hname,
        ↓existsAndEq, and_true, components_evidence, Release.installed]
    rw [hnames]
    by_cases hmanifest : path = ["manifest.json".toList]
    · subst hmanifest
      exact iff_of_true ⟨bytes, if_pos rfl⟩ (.inl rfl)
    rw [hset hmanifest]
    constructor
    · rintro ⟨content, hfile⟩
      by_contra hnot
      rw [h.inside path fun artifact ha heq => hnot (.inr ⟨artifact, ha, heq.symm⟩)] at hfile
      split at hfile
      · cases hfile
      · rcases eq_or_ne path [] with rfl | hne
        · rw [List.append_nil, hstage.directories stage List.prefix_rfl] at hfile
          cases hfile
        · rw [hstage.empty path hne] at hfile
          cases hfile
    · rintro (heq | ⟨artifact, ha, rfl⟩)
      · exact absurd heq hmanifest
      · exact ⟨_, h.artifact artifact ha⟩
  · rw [mem_expectedDirectories_iff hcanonical hne]
    by_cases hmanifest : path = ["manifest.json".toList]
    · subst hmanifest
      refine iff_of_false ?_ ?_
      · rw [FileTree.set, if_pos rfl]
        intro hdirectory
        cases hdirectory
      · rintro ⟨artifact, -, hunder, -⟩
        exact manifest_not_prefix artifact hunder
    rw [hset hmanifest]
    constructor
    · intro hdirectory
      by_contra hnot
      have hfar : ∀ artifact ∈ artifacts, ¬ path <+: Release.installed artifact := by
        intro artifact ha hunder
        rcases eq_or_ne path (Release.installed artifact) with rfl | hne'
        · rw [h.artifact artifact ha] at hdirectory
          cases hdirectory
        · exact hnot ⟨artifact, ha, hunder, hne'⟩
      rw [h.empty hstage hne hfar] at hdirectory
      cases hdirectory
    · rintro ⟨artifact, ha, hunder, hne'⟩
      exact h.directory hfree ha hunder hne'

/-- **An accepted inventory can be installed**: nothing is in the way of a file or a directory. -/
theorem materialise_ok {tree : FileTree Text C} {stage : List Text} {artifacts : List Artifact}
    (h : Canonical artifacts) (hfree : ConflictFree artifacts) (hstage : FreshStage tree stage)
    (payload : Artifact → C) (bytes : C) :
    ∃ tree', materialise tree stage payload bytes artifacts = .ok tree' ∧
      Installed tree tree' stage payload bytes artifacts := by
  have hplace : joinPath stage "manifest.json".toList = stage ++ ["manifest.json".toList] :=
    (joinPath_eq (by decide) stage).1
  have hstaged := staged_withFiles h hfree hstage payload
  have hcreate := createArtifacts_eq h hfree hstage payload
  generalize tree.withFiles (artifacts.map fun artifact =>
    (stage ++ installed artifact, payload artifact)) = tree₁ at hstaged hcreate
  have hnone : tree₁ (stage ++ ["manifest.json".toList]) = none :=
    hstaged.empty hstage (List.cons_ne_nil _ _) fun artifact _ => manifest_not_prefix artifact
  have hroot : tree₁ stage = some .directory := by
    have hinside := hstaged.inside [] fun artifact _ => List.cons_ne_nil _ _
    rw [List.append_nil] at hinside
    rw [hinside, hstage.directories stage List.prefix_rfl, ite_self]
  refine ⟨_, ?_, hstaged.installed h hfree hstage bytes⟩
  rw [materialise, hcreate]
  change tree₁.write _ _ = _
  rw [hplace, FileTree.write, hnone, List.dropLast_concat, hroot]

/-- **The inventory.** The one pass finds a conflict exactly where there is one, as the lookup in the
whole list does; the two validators accept the same manifests; and what they accept can be installed. -/
theorem inventory_materialisable :
    (∀ artifacts : List Artifact,
      ((∃ artifact ∈ artifacts, pathConflict (artifacts.map Artifact.logicalPath)
          artifact.logicalPath = true) ↔ ∃ artifact ∈ artifacts, ∃ other ∈ artifacts,
            ComponentPrefix artifact.logicalPath other.logicalPath) ∧
      (inventoryPass artifacts = .error "file/directory path conflict" →
        ∃ artifact ∈ artifacts, ∃ other ∈ artifacts,
          ComponentPrefix artifact.logicalPath other.logicalPath) ∧
      ((∃ artifact ∈ artifacts, ∃ other ∈ artifacts,
          ComponentPrefix artifact.logicalPath other.logicalPath) →
        (inventoryPass artifacts).isOk = false) ∧
      (Canonical artifacts → artifacts.length ≤ ARTIFACT_LIMIT →
        inventoryPass artifacts = if ConflictFree artifacts then .ok (.after artifacts)
          else .error "file/directory path conflict")) ∧
    (∀ value : ToolManifest, Canonical value.artifacts →
      (exactInventory value = .error "file/directory logical path conflict" ↔
        ¬ ConflictFree value.artifacts)) ∧
    (∀ value : ReleaseManifest,
      (parseManifest value).isOk = true ↔ modelValidates value.asTool = true) ∧
    (∀ value : ToolManifest, readsManifest value = true ↔
      ∃ host : ReleaseManifest, host.asTool = value ∧ (parseManifest host).isOk = true) ∧
    ∀ value accepted : ReleaseManifest, parseManifest value = .ok accepted →
      ∀ (C : Type) (tree : FileTree Text C) (stage : List Text) (payload : Artifact → C) (bytes : C),
        FreshStage tree stage →
          ∃ tree', materialise tree stage payload bytes accepted.artifacts = .ok tree' ∧
            Installed tree tree' stage payload bytes accepted.artifacts := by
  refine ⟨fun artifacts => ⟨?_, fun h => ?_, fun h => ?_, fun h hlength => ?_⟩,
    fun value h => exactInventory_conflict_iff h, parseManifest_isOk_iff, readsManifest_iff, ?_⟩
  · simp only [pathConflict_iff, List.mem_map, ↓existsAndEq, and_true]
    constructor
    · rintro ⟨other, hother, artifact, hartifact, hunder⟩
      exact ⟨artifact, hartifact, other, hother, hunder⟩
    · rintro ⟨artifact, hartifact, other, hother, hunder⟩
      exact ⟨other, hother, artifact, hartifact, hunder⟩
  · exact not_conflictFree_iff.mp (not_conflictFree_of_inventoryPass h)
  · rw [Bool.eq_false_iff]
    intro hok
    obtain ⟨state, hpass⟩ := exists_of_isOk hok
    exact not_conflictFree_iff.mpr h (canonical_of_inventoryPass hpass).2.1
  · exact inventoryPass_eq h (h.total_le hlength)
  · intro value accepted hparse C tree stage payload bytes hstage
    obtain ⟨haccepted, rfl⟩ := parseManifest_eq_ok_iff.mp hparse
    exact materialise_ok haccepted.canonical haccepted.conflictFree hstage payload bytes

/-- Three artifacts, of which the first one would have to be a directory of the last one. -/
def conflictingArtifacts : List Artifact :=
  ["a".toList, "a-b".toList, "a/b".toList].zipIdx.map fun indexed => {
    logicalPath := indexed.1
    filename := artifactFilename indexed.2
    sha256 := List.replicate 64 '0'
    sizeBytes := 3 }

/-- Two artifacts in one directory and one beside it. -/
def exampleArtifacts : List Artifact :=
  ["a-b".toList, "a/b".toList, "a/c".toList].zipIdx.map fun indexed => {
    logicalPath := indexed.1
    filename := artifactFilename indexed.2
    sha256 := List.replicate 64 '0'
    sizeBytes := 3 }

/-- A manifest of these artifacts. -/
def exampleManifest : ReleaseManifest where
  schemaVersion := 5
  protocol := "layered-accuracy-v1".toList
  productVersion := "v0.2.0".toList
  goldenVersion := "goldens-v0.2".toList
  source := { commit := List.replicate 40 'a', tree := List.replicate 40 'b' }
  registrySha256 := List.replicate 64 '1'
  policySha256 := List.replicate 64 '2'
  definitionIndexBlob := List.replicate 40 'c'
  entrypoints := {
    authoritativeManifest := "a-b".toList
    authoritativeMarker := "a/b".toList
    performance := "a/c".toList
    cpuGates := "a/c".toList }
  counts := []
  artifacts := exampleArtifacts
  archive := { filename := "goldens-v0.2.tar.gz".toList, sha256 := List.replicate 64 '3' }

/-- A tree with nothing but a directory for the stage. -/
def exampleTree : FileTree Text C := fun path =>
  if path <+: ["stage".toList] then some .directory else none

theorem conflictingArtifacts_canonical : Canonical conflictingArtifacts where
  safe := by decide +kernel
  ascending := by decide +kernel
  filename := by
    have hall : ∀ index : Fin conflictingArtifacts.length,
        conflictingArtifacts[index].filename = artifactFilename index := by decide +kernel
    intro index artifact h
    obtain ⟨hlt, rfl⟩ := List.getElem?_eq_some_iff.mp h
    exact hall ⟨index, hlt⟩
  sha256 := by decide +kernel
  size := by decide +kernel

theorem exampleTree_fresh : FreshStage (exampleTree (C := C)) ["stage".toList] where
  directories _ habove := if_pos habove
  empty path hne := if_neg fun hunder => hne (by
    obtain ⟨rest, hrest⟩ := hunder
    rw [List.append_assoc] at hrest
    have hnil := List.append_cancel_left (hrest.trans (List.append_nil _).symm)
    exact (List.append_eq_nil_iff.mp hnil).1)

theorem inventory_materialisable_example :
    inventoryPass conflictingArtifacts = .error "file/directory path conflict" ∧
      ∃ tree', materialise exampleTree ["stage".toList] Artifact.sizeBytes 0 exampleArtifacts =
        .ok tree' ∧
          Installed exampleTree tree' ["stage".toList] Artifact.sizeBytes 0 exampleArtifacts := by
  obtain ⟨hpass, -, -, -, hinstall⟩ := inventory_materialisable
  refine ⟨?_, ?_⟩
  · rw [(hpass conflictingArtifacts).2.2.2 conflictingArtifacts_canonical (by decide +kernel),
      if_neg (by decide +kernel)]
  · have hok : (parseManifest exampleManifest).isOk = true := by decide +kernel
    obtain ⟨accepted, hparse⟩ := exists_of_isOk hok
    have haccepted := (parseManifest_eq_ok_iff.mp hparse).2
    subst haccepted
    exact hinstall _ _ hparse ℕ exampleTree ["stage".toList] Artifact.sizeBytes 0 exampleTree_fresh

end VllmOxide.Release
