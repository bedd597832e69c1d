import VllmOxide.Library.ByteReader
import VllmOxide.Release.Header
import VllmOxide.Release.Materialise

/-!
# Installing an archive

The installers of the host and of the tool read an archive artifact by artifact: a header, the payload,
and zeros up to the next block. What is left has to be the end markers. Both accept exactly the archives
of this shape, in whatever pieces the decoder hands on the bytes, and they create the same files. The
tool writes archives of this shape.

## Main definitions

* `installTransport`: the loop of the host.
* `Tool.installTransport`, `Tool.buildBundle`: the loops of the tool.
* `Entries`: the bytes of the artifacts, one after another.

## Main results

* `installTransport_eq_ok_iff`, `Tool.installTransport_eq_ok_iff`: what the installers accept.
* `transport_canonical`: the installers and the writer agree.
-/

namespace VllmOxide.Release

variable (digest : List UInt8 → Text) (stage : List Text)

/-! ### The host -/

/-- `read_exact`. -/
def readExact (n : ℕ) (reader : Pieces UInt8) : Except String (List UInt8 × Pieces UInt8) :=
  let got := readLoop Pieces.read id n n reader
  if got.1.length < n then .error "failed to fill whole buffer" else .ok got

/-- The zeros behind a payload. -/
def paddingLength (sizeBytes : ℕ) : ℕ :=
  (512 - sizeBytes % 512) % 512

/-- The pass over one artifact. -/
def installArtifact (state : Pieces UInt8 × FileTree Text (List UInt8)) (artifact : Artifact) :
    Except String (Pieces UInt8 × FileTree Text (List UInt8)) := do
  let block ← readExact 512 state.1
  let expected ← header artifact
  bailIf (block.1 ≠ expected) "noncanonical or unexpected USTAR header"
  let tree ← state.2.createDirAll (target stage artifact).dropLast
  let tree ← tree.createNew (target stage artifact) []
  let payload := readLoop Pieces.read (min · 65536) artifact.sizeBytes artifact.sizeBytes block.2
  bailIf (payload.1.length < artifact.sizeBytes) "truncated archive payload"
  bailIf (digest payload.1 ≠ artifact.sha256) "extracted checksum mismatch"
  let padding ← readExact (paddingLength artifact.sizeBytes) payload.2
  bailIf (∃ byte ∈ padding.1, byte ≠ 0) "nonzero payload padding"
  return (padding.2, tree.set (target stage artifact) (.file payload.1))

/-- The bytes that are read behind the artifacts: one more than there may be. -/
def TAIL_LIMIT : ℕ := 1024 * 1024 + 1

/-- The archive loop of `install_transport`, with the manifest that is written behind it. -/
def installTransport (bytes : List UInt8) (artifacts : List Artifact) (archive : Pieces UInt8)
    (tree : FileTree Text (List UInt8)) : Except String (FileTree Text (List UInt8)) := do
  let state ← artifacts.foldlM (installArtifact digest stage) (archive, tree)
  let tail := (readLoop Pieces.read id TAIL_LIMIT TAIL_LIMIT state.1).1
  bailIf (tail.length < 1024 ∨ 1024 * 1024 < tail.length ∨ tail.length % 512 ≠ 0 ∨
      ∃ byte ∈ tail, byte ≠ 0)
    "invalid USTAR end markers or trailing content"
  state.2.write (joinPath stage "manifest.json".toList) bytes

/-! ### The tool -/

namespace Tool

/-- `(-size) % 512`. -/
def paddingLength (sizeBytes : ℕ) : ℕ :=
  ((-(sizeBytes : ℤ)) % 512).toNat

/-- The pass over one artifact. -/
def installArtifact (state : Buffered UInt8 × FileTree Text (List UInt8)) (item : Artifact) :
    Except String (Buffered UInt8 × FileTree Text (List UInt8)) := do
  let block := Buffered.read 512 state.1
  let expected ← headerOf item
  bailIf (block.1 ≠ expected) "noncanonical or unexpected USTAR header"
  let tree ← state.2.createDirAll (target stage item).dropLast
  let tree ← tree.createNew (target stage item) []
  let payload := readLoop Buffered.read (min · 65536) item.sizeBytes item.sizeBytes block.2
  bailIf (payload.1.length < item.sizeBytes) "truncated archive payload"
  bailIf (digest payload.1 ≠ item.sha256) "extracted artifact checksum mismatch"
  let padding := Buffered.read (paddingLength item.sizeBytes) payload.2
  bailIf (padding.1 ≠ List.replicate (paddingLength item.sizeBytes) 0)
    "nonzero USTAR payload padding"
  return (padding.2, tree.set (target stage item) (.file payload.1))

/-- `install_transport`, from the first header to the manifest. -/
def installTransport (bytes : List UInt8) (artifacts : List Artifact) (archive : Pieces UInt8)
    (tree : FileTree Text (List UInt8)) : Except String (FileTree Text (List UInt8)) := do
  let state ← artifacts.foldlM (installArtifact digest stage) ({ buffer := [], pieces := archive }, tree)
  let tail := (Buffered.read TAIL_LIMIT state.1).1
  bailIf (tail.length < 1024 ∨ 1024 * 1024 < tail.length ∨ tail.length % 512 ≠ 0 ∨
      ∃ byte ∈ tail, byte ≠ 0)
    "invalid USTAR end markers or trailing content"
  state.2.write (joinPath stage "manifest.json".toList) bytes

/-- A file of the release as the writer meets it: when it is checked first, in the pieces in which it
is copied, and when it is checked again. -/
structure SourceFile where
  before : List UInt8
  pieces : Pieces UInt8
  after : List UInt8

/-- `_verify_file`. -/
def verifyFile (content : List UInt8) (item : Artifact) : Except String Unit :=
  bailIf (content.length ≠ item.sizeBytes ∨ digest content ≠ item.sha256)
    "artifact size/checksum mismatch"

/-- The loop that copies a file, until a piece is empty. -/
def copyPieces (sizeBytes : ℕ) : (copied : List UInt8) → Pieces UInt8 → Except String (List UInt8)
  | copied, [] => .ok copied
  | copied, chunk :: rest =>
    if chunk = [] then .ok copied
    else if sizeBytes < (copied ++ chunk).length then
      .error "artifact grew during archive streaming"
    else copyPieces sizeBytes (copied ++ chunk) rest

/-- The entry of one artifact. -/
def writeArtifact (source : Artifact → SourceFile) (compressed : List UInt8) (item : Artifact) :
    Except String (List UInt8) := do
  verifyFile digest (source item).before item
  let block ← headerOf item
  let copied ← copyPieces item.sizeBytes [] (source item).pieces
  bailIf (copied.length ≠ item.sizeBytes ∨ digest copied ≠ item.sha256)
    "artifact changed during archive streaming"
  verifyFile digest (source item).after item
  return compressed ++ block ++ copied ++ List.replicate (paddingLength item.sizeBytes) 0

/-- `build_bundle`: the bytes that are compressed. -/
def buildBundle (source : Artifact → SourceFile) (artifacts : List Artifact) :
    Except String (List UInt8) := do
  let compressed ← artifacts.foldlM (writeArtifact digest source) []
  return compressed ++ List.replicate 1024 0

end Tool

/-! ### Archives -/

/-- The bytes of the artifacts in front of the tail of an archive: the header, the payload with its
declared size and digest, and zeros up to the next block. -/
inductive Entries : List Artifact → List (List UInt8) → (archive tail : List UInt8) → Prop
  | done (tail : List UInt8) : Entries [] [] tail tail
  | entry {artifact : Artifact} {artifacts : List Artifact} {block payload : List UInt8}
      {payloads : List (List UInt8)} {archive tail : List UInt8}
      (hheader : header artifact = .ok block) (hsize : payload.length = artifact.sizeBytes)
      (hdigest : digest payload = artifact.sha256) (hrest : Entries artifacts payloads archive tail) :
      Entries (artifact :: artifacts) (payload :: payloads)
        (block ++ (payload ++ (List.replicate (paddingLength artifact.sizeBytes) 0 ++ archive))) tail

theorem paddingLength_eq (sizeBytes : ℕ) : Tool.paddingLength sizeBytes = paddingLength sizeBytes := by
  rw [Tool.paddingLength, paddingLength]
  omega

/-! ### One artifact -/

/-- The bytes of one artifact in front of the rest of an archive. -/
structure EntryOf (artifact : Artifact) (archive payload rest : List UInt8) : Prop where
  size : payload.length = artifact.sizeBytes
  digest_eq : digest payload = artifact.sha256
  split : ∃ block, header artifact = .ok block ∧ archive =
    block ++ (payload ++ (List.replicate (paddingLength artifact.sizeBytes) 0 ++ rest))

/-- A pass over one artifact that reads its entry and creates its file. -/
structure ReadsEntry {σ : Type} (step : σ × FileTree Text (List UInt8) → Artifact →
    Except String (σ × FileTree Text (List UInt8))) (stream : σ → List UInt8) (artifact : Artifact) :
    Prop where
  sound : ∀ s tree state, step (s, tree) artifact = .ok state →
    ∃ payload, EntryOf digest artifact (stream s) payload (stream state.1) ∧
      tree.createFile (target stage artifact, payload) = .ok state.2
  complete : ∀ s tree payload rest tree', EntryOf digest artifact (stream s) payload rest →
    tree.createFile (target stage artifact, payload) = .ok tree' →
      ∃ s', step (s, tree) artifact = .ok (s', tree') ∧ stream s' = rest

variable {digest stage}

theorem ask_id : ∀ n, 0 < n → 0 < id n ∧ id n ≤ n := fun _ h => ⟨h, le_rfl⟩

theorem ask_buffer : ∀ n, 0 < n → 0 < min n 65536 ∧ min n 65536 ≤ n := fun _ h =>
  ⟨lt_min h (by decide), min_le_left _ _⟩

/-- Reading exactly so many bytes. -/
theorem readExact_eq_ok_iff {n : ℕ} {reader : Pieces UInt8} {got : List UInt8 × Pieces UInt8} :
    readExact n reader = .ok got ↔ got = readLoop Pieces.read id n n reader ∧
      n ≤ reader.flatten.length := by
  have htake := (Pieces.lawful.readLoop_eq ask_id (le_refl n) reader).1
  rw [readExact, htake, List.length_take]
  split
  · rename_i hlt
    exact iff_of_false nofun fun hboth => by omega
  · rename_i hge
    constructor
    · intro h
      exact ⟨(Except.ok.inj h).symm, by omega⟩
    · rintro ⟨rfl, -⟩
      rfl

/-- Splitting a stream where its parts end. -/
theorem split_iff {bytes first rest : List UInt8} {n : ℕ} (hfirst : first.length = n) :
    bytes = first ++ rest ↔ bytes.take n = first ∧ bytes.drop n = rest := by
  constructor
  · rintro rfl
    exact ⟨List.take_left' hfirst, List.drop_left' hfirst⟩
  · rintro ⟨rfl, rfl⟩
    exact (List.take_append_drop n bytes).symm

/-- What is read behind the header of one artifact. -/
theorem entryOf_iff {artifact : Artifact} {block : List UInt8} (hheader : header artifact = .ok block)
    (hblock : block.length = 512) {archive payload rest : List UInt8} :
    EntryOf digest artifact archive payload rest ↔
      archive.take 512 = block ∧
        (archive.drop 512).take artifact.sizeBytes = payload ∧
        artifact.sizeBytes ≤ (archive.drop 512).length ∧
        digest payload = artifact.sha256 ∧
        ((archive.drop 512).drop artifact.sizeBytes).take (paddingLength artifact.sizeBytes) =
          List.replicate (paddingLength artifact.sizeBytes) 0 ∧
        ((archive.drop 512).drop artifact.sizeBytes).drop (paddingLength artifact.sizeBytes) = rest := by
  constructor
  · rintro ⟨hsize, hdigest, block', hheader', harchive⟩
    obtain rfl := Except.ok.inj (hheader.symm.trans hheader')
    obtain ⟨htake, hdrop⟩ := (split_iff hblock).mp harchive
    obtain ⟨hpayload, hpad⟩ := (split_iff hsize).mp hdrop
    obtain ⟨hzeros, hrest⟩ := (split_iff List.length_replicate).mp hpad
    refine ⟨htake, hpayload, ?_, hdigest, hzeros, hrest⟩
    rw [hdrop, List.length_append, hsize]
    exact Nat.le_add_right _ _
  · rintro ⟨htake, hpayload, hlength, hdigest, hzeros, hrest⟩
    have hsize : payload.length = artifact.sizeBytes := by
      rw [← hpayload, List.length_take, min_eq_left hlength]
    refine ⟨hsize, hdigest, block, hheader, ?_⟩
    exact (split_iff hblock).mpr ⟨htake, (split_iff hsize).mpr ⟨hpayload,
      (split_iff List.length_replicate).mpr ⟨hzeros, hrest⟩⟩⟩

theorem take_eq_replicate_iff {bytes : List UInt8} {n : ℕ} :
    bytes.take n = List.replicate n 0 ↔ n ≤ bytes.length ∧ ∀ byte ∈ bytes.take n, byte = 0 := by
  rw [List.eq_replicate_iff, List.length_take, min_eq_left_iff]

/-- **The host** reads the entry of an artifact. -/
theorem installArtifact_reads {artifact : Artifact} {block : List UInt8}
    (hheader : header artifact = .ok block) (hblock : block.length = 512) :
    ReadsEntry digest stage (installArtifact digest stage) List.flatten artifact := by
  constructor
  · intro s tree state h
    obtain ⟨first, hfirst, h⟩ := exists_of_bind_ok h
    obtain ⟨rfl, -⟩ := readExact_eq_ok_iff.mp hfirst
    obtain ⟨expected, hexpected, h⟩ := exists_of_bind_ok h
    obtain rfl := Except.ok.inj (hheader.symm.trans hexpected)
    obtain ⟨u₁, hsame, h⟩ := exists_of_bind_ok h
    obtain ⟨tree₁, htree₁, h⟩ := exists_of_bind_ok h
    obtain ⟨tree₂, htree₂, h⟩ := exists_of_bind_ok h
    obtain ⟨u₂, hlength, h⟩ := exists_of_bind_ok h
    obtain ⟨u₃, hdigest, h⟩ := exists_of_bind_ok h
    obtain ⟨padding, hpadding, h⟩ := exists_of_bind_ok h
    obtain ⟨rfl, hpaddingLength⟩ := readExact_eq_ok_iff.mp hpadding
    obtain ⟨u₄, hzeros, h⟩ := exists_of_bind_ok h
    obtain ⟨hread, hrest⟩ := Pieces.lawful.readLoop_eq ask_id (le_refl 512) s
    obtain ⟨hpayload, hbehind⟩ := Pieces.lawful.readLoop_eq ask_buffer
      (le_refl artifact.sizeBytes) (readLoop Pieces.read id 512 512 s).2
    obtain ⟨hpad, hlast⟩ := Pieces.lawful.readLoop_eq ask_id (le_refl (paddingLength artifact.sizeBytes))
      (readLoop Pieces.read (min · 65536) artifact.sizeBytes artifact.sizeBytes
        (readLoop Pieces.read id 512 512 s).2).2
    have hsame := not_not.mp (not_of_bailIf_ok hsame)
    have hlength := not_lt.mp (not_of_bailIf_ok hlength)
    have hdigest := not_not.mp (not_of_bailIf_ok hdigest)
    have hzeros := not_of_bailIf_ok hzeros
    rw [hrest] at hpayload hbehind
    rw [hbehind] at hpad hlast hpaddingLength
    rw [hpayload] at hlength hdigest h
    rw [hpad] at hzeros
    rw [hread] at hsame
    rw [List.length_take] at hlength
    rw [← Except.ok.inj h]
    refine ⟨_, (entryOf_iff hheader hblock).mpr ⟨hsame, rfl, by omega, hdigest,
      take_eq_replicate_iff.mpr ⟨hpaddingLength, fun byte hbyte => ?_⟩, hlast.symm⟩,
      (FileTree.createFile_eq_ok_iff []).mpr ⟨tree₁, htree₁, tree₂, htree₂, rfl⟩⟩
    by_contra hne
    exact hzeros ⟨byte, hbyte, hne⟩
  · intro s tree payload rest tree' hentry hfile
    obtain ⟨htake, hpayload', hlength, hdigest, hzeros, hrest'⟩ :=
      (entryOf_iff hheader hblock).mp hentry
    obtain ⟨tree₁, htree₁, tree₂, htree₂, rfl⟩ := (FileTree.createFile_eq_ok_iff []).mp hfile
    obtain ⟨hread, hrest⟩ := Pieces.lawful.readLoop_eq ask_id (le_refl 512) s
    obtain ⟨hpayload, hbehind⟩ := Pieces.lawful.readLoop_eq ask_buffer
      (le_refl artifact.sizeBytes) (readLoop Pieces.read id 512 512 s).2
    obtain ⟨hpad, hlast⟩ := Pieces.lawful.readLoop_eq ask_id (le_refl (paddingLength artifact.sizeBytes))
      (readLoop Pieces.read (min · 65536) artifact.sizeBytes artifact.sizeBytes
        (readLoop Pieces.read id 512 512 s).2).2
    rw [hrest, hpayload'] at hpayload
    rw [hrest] at hbehind
    rw [hbehind] at hpad hlast
    obtain ⟨hpaddingLength, hbytes⟩ := take_eq_replicate_iff.mp hzeros
    have hsize : payload.length = artifact.sizeBytes := hentry.size
    have h512 : 512 ≤ s.flatten.length := by
      rw [← hblock, ← htake, List.length_take]
      exact min_le_right _ _
    refine ⟨_, ?_, hlast.trans hrest'⟩
    refine bind_eq_ok_iff.mpr ⟨_, readExact_eq_ok_iff.mpr ⟨rfl, h512⟩, ?_⟩
    refine bind_eq_ok_iff.mpr ⟨_, hheader, ?_⟩
    refine bind_eq_ok_iff.mpr ⟨(), bailIf_of_not (not_not.mpr (hread.trans htake)), ?_⟩
    refine bind_eq_ok_iff.mpr ⟨_, htree₁, ?_⟩
    refine bind_eq_ok_iff.mpr ⟨_, htree₂, ?_⟩
    refine bind_eq_ok_iff.mpr ⟨(), bailIf_of_not ?_, ?_⟩
    · rw [hpayload, hsize]
      exact lt_irrefl _
    refine bind_eq_ok_iff.mpr ⟨(), bailIf_of_not ?_, ?_⟩
    · rw [hpayload]
      exact not_not.mpr hdigest
    refine bind_eq_ok_iff.mpr ⟨_, readExact_eq_ok_iff.mpr ⟨rfl, ?_⟩, ?_⟩
    · rw [hbehind]
      exact hpaddingLength
    refine bind_eq_ok_iff.mpr ⟨(), bailIf_of_not ?_, ?_⟩
    · rw [hpad]
      rintro ⟨byte, hbyte, hne⟩
      exact hne (hbytes byte hbyte)
    rw [hpayload]
    rfl

/-- **The tool** reads the entry of an artifact. -/
theorem Tool.installArtifact_reads {artifact : Artifact} {block : List UInt8}
    (hheader : header artifact = .ok block) (hheader' : headerOf artifact = .ok block)
    (hblock : block.length = 512) :
    ReadsEntry digest stage (Tool.installArtifact digest stage) Buffered.stream artifact := by
  constructor
  · intro s tree state h
    obtain ⟨expected, hexpected, h⟩ := exists_of_bind_ok h
    obtain rfl := Except.ok.inj (hheader'.symm.trans hexpected)
    obtain ⟨u₁, hsame, h⟩ := exists_of_bind_ok h
    obtain ⟨tree₁, htree₁, h⟩ := exists_of_bind_ok h
    obtain ⟨tree₂, htree₂, h⟩ := exists_of_bind_ok h
    obtain ⟨u₂, hlength, h⟩ := exists_of_bind_ok h
    obtain ⟨u₃, hdigest, h⟩ := exists_of_bind_ok h
    obtain ⟨u₄, hzeros, h⟩ := exists_of_bind_ok h
    obtain ⟨hread, hrest⟩ := Buffered.read_eq 512 s
    obtain ⟨hpayload, hbehind⟩ := Buffered.lawful.readLoop_eq ask_buffer
      (le_refl artifact.sizeBytes) (Buffered.read 512 s).2
    obtain ⟨hpad, hlast⟩ := Buffered.read_eq (Tool.paddingLength artifact.sizeBytes)
      (readLoop Buffered.read (min · 65536) artifact.sizeBytes artifact.sizeBytes
        (Buffered.read 512 s).2).2
    have hsame := not_not.mp (not_of_bailIf_ok hsame)
    have hlength := not_lt.mp (not_of_bailIf_ok hlength)
    have hdigest := not_not.mp (not_of_bailIf_ok hdigest)
    have hzeros := not_not.mp (not_of_bailIf_ok hzeros)
    rw [hrest] at hpayload hbehind
    rw [hbehind] at hpad hlast
    rw [hpayload] at hlength hdigest h
    rw [hpad] at hzeros
    rw [hread] at hsame
    rw [List.length_take] at hlength
    rw [paddingLength_eq] at hzeros hlast
    rw [← Except.ok.inj h, paddingLength_eq]
    exact ⟨_, (entryOf_iff hheader hblock).mpr ⟨hsame, rfl, by omega, hdigest, hzeros, hlast.symm⟩,
      (FileTree.createFile_eq_ok_iff []).mpr ⟨tree₁, htree₁, tree₂, htree₂, rfl⟩⟩
  · intro s tree payload rest tree' hentry hfile
    obtain ⟨htake, hpayload', hlength, hdigest, hzeros, hrest'⟩ :=
      (entryOf_iff hheader hblock).mp hentry
    obtain ⟨tree₁, htree₁, tree₂, htree₂, rfl⟩ := (FileTree.createFile_eq_ok_iff []).mp hfile
    obtain ⟨hread, hrest⟩ := Buffered.read_eq 512 s
    obtain ⟨hpayload, hbehind⟩ := Buffered.lawful.readLoop_eq ask_buffer
      (le_refl artifact.sizeBytes) (Buffered.read 512 s).2
    obtain ⟨hpad, hlast⟩ := Buffered.read_eq (Tool.paddingLength artifact.sizeBytes)
      (readLoop Buffered.read (min · 65536) artifact.sizeBytes artifact.sizeBytes
        (Buffered.read 512 s).2).2
    rw [hrest, hpayload'] at hpayload
    rw [hrest] at hbehind
    rw [hbehind, paddingLength_eq] at hpad hlast
    have hsize : payload.length = artifact.sizeBytes := hentry.size
    refine ⟨_, ?_, hlast.trans hrest'⟩
    refine bind_eq_ok_iff.mpr ⟨_, hheader', ?_⟩
    refine bind_eq_ok_iff.mpr ⟨(), bailIf_of_not (not_not.mpr (hread.trans htake)), ?_⟩
    refine bind_eq_ok_iff.mpr ⟨_, htree₁, ?_⟩
    refine bind_eq_ok_iff.mpr ⟨_, htree₂, ?_⟩
    refine bind_eq_ok_iff.mpr ⟨(), bailIf_of_not ?_, ?_⟩
    · rw [hpayload, hsize]
      exact lt_irrefl _
    refine bind_eq_ok_iff.mpr ⟨(), bailIf_of_not ?_, ?_⟩
    · rw [hpayload]
      exact not_not.mpr hdigest
    rw [paddingLength_eq]
    refine bind_eq_ok_iff.mpr ⟨(), bailIf_of_not (not_not.mpr (hpad.trans hzeros)), ?_⟩
    rw [hpayload]
    rfl

/-! ### All artifacts -/

/-- The files of the payloads. -/
def payloadFiles (stage : List Text) (artifacts : List Artifact) (payloads : List (List UInt8)) :
    List (List Text × List UInt8) :=
  (artifacts.zip payloads).map fun entry => (target stage entry.1, entry.2)

section Loop

variable {σ : Type} {step : σ × FileTree Text (List UInt8) → Artifact →
  Except String (σ × FileTree Text (List UInt8))} {stream : σ → List UInt8}

theorem Entries.of_foldlM {artifacts : List Artifact}
    (h : ∀ artifact ∈ artifacts, ReadsEntry digest stage step stream artifact) {s : σ}
    {tree : FileTree Text (List UInt8)} {state : σ × FileTree Text (List UInt8)}
    (hrun : artifacts.foldlM step (s, tree) = .ok state) :
    ∃ payloads, Entries digest artifacts payloads (stream s) (stream state.1) ∧
      tree.createFiles (payloadFiles stage artifacts payloads) = .ok state.2 := by
  induction artifacts generalizing s tree with
  | nil =>
    obtain rfl := Except.ok.inj hrun
    exact ⟨[], .done _, rfl⟩
  | cons artifact artifacts ih =>
    rw [List.foldlM_cons] at hrun
    obtain ⟨between, hfirst, hrun⟩ := exists_of_bind_ok hrun
    obtain ⟨payload, hentry, hfile⟩ := (h artifact List.mem_cons_self).sound s tree between hfirst
    obtain ⟨payloads, hentries, hfiles⟩ :=
      ih (fun a ha => h a (List.mem_cons_of_mem _ ha)) hrun
    obtain ⟨hsize, hdigest, block, hheader, hsplit⟩ := hentry
    refine ⟨payload :: payloads, ?_, ?_⟩
    · rw [hsplit]
      exact .entry hheader hsize hdigest hentries
    · exact bind_eq_ok_iff.mpr ⟨_, hfile, hfiles⟩

theorem Entries.foldlM {artifacts : List Artifact}
    (h : ∀ artifact ∈ artifacts, ReadsEntry digest stage step stream artifact) {s : σ}
    {tree tree' : FileTree Text (List UInt8)} {payloads : List (List UInt8)} {tail : List UInt8}
    (hentries : Entries digest artifacts payloads (stream s) tail)
    (hfiles : tree.createFiles (payloadFiles stage artifacts payloads) = .ok tree') :
    ∃ s', artifacts.foldlM step (s, tree) = .ok (s', tree') ∧ stream s' = tail := by
  generalize harchive : stream s = archive at hentries
  induction hentries generalizing s tree with
  | done tail =>
    obtain rfl := Except.ok.inj hfiles
    exact ⟨s, rfl, harchive⟩
  | entry hheader hsize hdigest hrest ih =>
    obtain ⟨tree₁, hfile, hfiles⟩ := exists_of_bind_ok hfiles
    obtain ⟨s₁, hstep, hs₁⟩ := (h _ List.mem_cons_self).complete s tree _ _ tree₁
      ⟨hsize, hdigest, _, hheader, harchive⟩ hfile
    obtain ⟨s', hrun, hs'⟩ := ih (fun a ha => h a (List.mem_cons_of_mem _ ha)) hfiles hs₁
    refine ⟨s', ?_, hs'⟩
    rw [List.foldlM_cons]
    exact bind_eq_ok_iff.mpr ⟨_, hstep, hrun⟩

/-- The checks of the tail let pass exactly the end markers. -/
theorem endMarkers_iff {bytes : List UInt8} :
    ¬ ((bytes.take TAIL_LIMIT).length < 1024 ∨ 1024 * 1024 < (bytes.take TAIL_LIMIT).length ∨
      (bytes.take TAIL_LIMIT).length % 512 ≠ 0 ∨ ∃ byte ∈ bytes.take TAIL_LIMIT, byte ≠ 0) ↔
      EndMarkers bytes := by
  have hlimit : TAIL_LIMIT = 1024 * 1024 + 1 := rfl
  rcases Nat.lt_or_ge (1024 * 1024) bytes.length with hlong | hshort
  · have hlength : (bytes.take TAIL_LIMIT).length = 1024 * 1024 + 1 := by
      rw [List.length_take, hlimit, min_eq_left hlong]
    refine iff_of_false (fun hnot => hnot (.inr (.inl ?_))) fun h => absurd h.most (not_le.mpr hlong)
    rw [hlength]
    exact Nat.lt_succ_self _
  · have htake : bytes.take TAIL_LIMIT = bytes :=
      List.take_of_length_le (hshort.trans (by rw [hlimit]; exact Nat.le_succ _))
    rw [htake]
    constructor
    · intro hnot
      simp only [not_or, not_lt, not_exists, not_and, ne_eq, not_not] at hnot
      obtain ⟨hleast, hmost, hblocks, hzero⟩ := hnot
      exact ⟨hzero, hleast, hmost, Nat.dvd_of_mod_eq_zero hblocks⟩
    · intro h
      simp only [not_or, not_lt, not_exists, not_and, ne_eq, not_not]
      exact ⟨h.least, h.most, Nat.mod_eq_zero_of_dvd h.blocks, h.zero⟩

/-- **The loop** accepts exactly the archives that consist of the entries and the end markers. -/
theorem Entries.install_iff {artifacts : List Artifact}
    (h : ∀ artifact ∈ artifacts, ReadsEntry digest stage step stream artifact)
    {readTail : σ → List UInt8} (htail : ∀ s, readTail s = (stream s).take TAIL_LIMIT) {start : σ}
    {tree tree' : FileTree Text (List UInt8)} {bytes : List UInt8} {message : String} :
    (do
      let state ← artifacts.foldlM step (start, tree)
      bailIf ((readTail state.1).length < 1024 ∨ 1024 * 1024 < (readTail state.1).length ∨
        (readTail state.1).length % 512 ≠ 0 ∨ ∃ byte ∈ readTail state.1, byte ≠ 0) message
      state.2.write (joinPath stage "manifest.json".toList) bytes) = .ok tree' ↔
    ∃ payloads tail, Entries digest artifacts payloads (stream start) tail ∧ EndMarkers tail ∧
      ∃ tree₁, tree.createFiles (payloadFiles stage artifacts payloads) = .ok tree₁ ∧
        tree₁.write (joinPath stage "manifest.json".toList) bytes = .ok tree' := by
  constructor
  · intro hrun
    obtain ⟨state, hloop, hrun⟩ := exists_of_bind_ok hrun
    obtain ⟨u, hmarkers, hwrite⟩ := exists_of_bind_ok hrun
    obtain ⟨payloads, hentries, hfiles⟩ := Entries.of_foldlM h hloop
    have hmarkers := not_of_bailIf_ok hmarkers
    rw [htail] at hmarkers
    exact ⟨payloads, _, hentries, endMarkers_iff.mp hmarkers, _, hfiles, hwrite⟩
  · rintro ⟨payloads, tail, hentries, hmarkers, tree₁, hfiles, hwrite⟩
    obtain ⟨s, hloop, rfl⟩ := Entries.foldlM h hentries hfiles
    refine bind_eq_ok_iff.mpr ⟨_, hloop, bind_eq_ok_iff.mpr ⟨(), bailIf_of_not ?_, hwrite⟩⟩
    rw [htail]
    exact endMarkers_iff.mpr hmarkers

end Loop

/-- The headers of all artifacts can be written, and the host and the tool agree on them. -/
def HeadersAgree (artifacts : List Artifact) : Prop :=
  ∀ artifact ∈ artifacts, ∃ block, header artifact = .ok block ∧ headerOf artifact = .ok block ∧
    block.length = 512

/-- **What the host accepts.** -/
theorem installTransport_eq_ok_iff {artifacts : List Artifact} (h : HeadersAgree artifacts)
    {bytes : List UInt8} {archive : Pieces UInt8} {tree tree' : FileTree Text (List UInt8)} :
    installTransport digest stage bytes artifacts archive tree = .ok tree' ↔
      ∃ payloads tail, Entries digest artifacts payloads archive.flatten tail ∧ EndMarkers tail ∧
        ∃ tree₁, tree.createFiles (payloadFiles stage artifacts payloads) = .ok tree₁ ∧
          tree₁.write (joinPath stage "manifest.json".toList) bytes = .ok tree' := by
  refine Entries.install_iff (fun artifact hmem => ?_)
    fun s => (Pieces.lawful.readLoop_eq ask_id (le_refl TAIL_LIMIT) s).1
  obtain ⟨block, hheader, -, hblock⟩ := h artifact hmem
  exact installArtifact_reads hheader hblock

/-- **What the tool accepts.** -/
theorem Tool.installTransport_eq_ok_iff {artifacts : List Artifact} (h : HeadersAgree artifacts)
    {bytes : List UInt8} {archive : Pieces UInt8} {tree tree' : FileTree Text (List UInt8)} :
    Tool.installTransport digest stage bytes artifacts archive tree = .ok tree' ↔
      ∃ payloads tail, Entries digest artifacts payloads archive.flatten tail ∧ EndMarkers tail ∧
        ∃ tree₁, tree.createFiles (payloadFiles stage artifacts payloads) = .ok tree₁ ∧
          tree₁.write (joinPath stage "manifest.json".toList) bytes = .ok tree' := by
  refine Entries.install_iff (fun artifact hmem => ?_) fun s => (Buffered.read_eq TAIL_LIMIT s).1
  obtain ⟨block, hheader, hheader', hblock⟩ := h artifact hmem
  exact Tool.installArtifact_reads hheader hheader' hblock

/-! ### The files -/

/-- The payload of an artifact. -/
def payloadOf (artifacts : List Artifact) (payloads : List (List UInt8)) (artifact : Artifact) :
    List UInt8 :=
  ((artifacts.zip payloads).lookup artifact).getD []

theorem Entries.length_eq {artifacts : List Artifact} {payloads : List (List UInt8)}
    {archive tail : List UInt8} (h : Entries digest artifacts payloads archive tail) :
    artifacts.length = payloads.length := by
  induction h with
  | done tail => rfl
  | entry hheader hsize hdigest hrest ih => rw [List.length_cons, List.length_cons, ih]

theorem payloadOf_of_mem {artifacts : List Artifact} (h : artifacts.Nodup)
    {payloads : List (List UInt8)} (hlength : artifacts.length = payloads.length)
    {artifact : Artifact} {payload : List UInt8} (hmem : (artifact, payload) ∈ artifacts.zip payloads) :
    payloadOf artifacts payloads artifact = payload := by
  have hdistinct : (artifacts.zip payloads).Pairwise fun entry other => entry.1 ≠ other.1 := by
    rw [← List.pairwise_map (f := Prod.fst), List.map_fst_zip hlength.le]
    exact h
  rw [payloadOf, FileTree.lookup_of_mem hdistinct hmem, Option.getD_some]

theorem payloadFiles_eq {artifacts : List Artifact} (h : artifacts.Nodup)
    {payloads : List (List UInt8)} (hlength : artifacts.length = payloads.length) :
    payloadFiles stage artifacts payloads =
      artifacts.map fun artifact => (target stage artifact, payloadOf artifacts payloads artifact) := by
  have hpayload : payloadFiles stage artifacts payloads = ((artifacts.zip payloads).map Prod.fst).map
      fun artifact => (target stage artifact, payloadOf artifacts payloads artifact) := by
    rw [payloadFiles, List.map_map]
    refine List.map_congr_left fun entry hmem => ?_
    rw [Function.comp_apply, payloadOf_of_mem h hlength hmem]
  rw [hpayload, List.map_fst_zip hlength.le]

theorem Canonical.nodup {artifacts : List Artifact} (h : Canonical artifacts) : artifacts.Nodup :=
  (List.pairwise_map.mp h.ascending).imp fun hlt heq => hlt.ne (congrArg Artifact.logicalPath heq)

/-- Creating the files of the payloads is materialising the artifacts. -/
theorem Entries.materialise_iff {artifacts : List Artifact} (h : Canonical artifacts)
    {payloads : List (List UInt8)} {archive tail bytes : List UInt8}
    (hentries : Entries digest artifacts payloads archive tail)
    {tree tree' : FileTree Text (List UInt8)} :
    (∃ tree₁, tree.createFiles (payloadFiles stage artifacts payloads) = .ok tree₁ ∧
      tree₁.write (joinPath stage "manifest.json".toList) bytes = .ok tree') ↔
      materialise tree stage (payloadOf artifacts payloads) bytes artifacts = .ok tree' := by
  rw [payloadFiles_eq h.nodup hentries.length_eq, materialise, bind_eq_ok_iff]

/-! ### The writer -/

/-- The writer puts the entries behind each other. -/
theorem Tool.entries_of_writeArtifact {source : Artifact → Tool.SourceFile} {artifacts : List Artifact}
    (h : HeadersAgree artifacts) {compressed archive : List UInt8}
    (hrun : artifacts.foldlM (Tool.writeArtifact digest source) compressed = .ok archive) :
    ∃ payloads written, archive = compressed ++ written ∧
      ∀ tail, Entries digest artifacts payloads (written ++ tail) tail := by
  induction artifacts generalizing compressed with
  | nil =>
    obtain rfl := Except.ok.inj hrun
    exact ⟨[], [], (List.append_nil _).symm, fun tail => .done tail⟩
  | cons artifact artifacts ih =>
    rw [List.foldlM_cons] at hrun
    obtain ⟨between, hfirst, hrun⟩ := exists_of_bind_ok hrun
    obtain ⟨payloads, written, rfl, hentries⟩ :=
      ih (fun a ha => h a (List.mem_cons_of_mem _ ha)) hrun
    obtain ⟨block, hheader, hheader', -⟩ := h artifact List.mem_cons_self
    obtain ⟨u, -, hfirst⟩ := exists_of_bind_ok hfirst
    obtain ⟨block', hblock, hfirst⟩ := exists_of_bind_ok hfirst
    obtain rfl := Except.ok.inj (hheader'.symm.trans hblock)
    obtain ⟨copied, -, hfirst⟩ := exists_of_bind_ok hfirst
    obtain ⟨u₁, hchecks, hfirst⟩ := exists_of_bind_ok hfirst
    obtain ⟨u₂, -, hfirst⟩ := exists_of_bind_ok hfirst
    have hchecks := not_of_bailIf_ok hchecks
    rw [not_or, not_not, not_not] at hchecks
    obtain rfl := Except.ok.inj hfirst
    rw [paddingLength_eq]
    refine ⟨copied :: payloads,
      block ++ copied ++ List.replicate (Release.paddingLength artifact.sizeBytes) 0 ++ written, ?_,
      fun tail => ?_⟩
    · simp only [List.append_assoc]
    · have hentry := Entries.entry hheader hchecks.1 hchecks.2 (hentries tail)
      simpa only [List.append_assoc] using hentry

/-- The archives of the writer have the shape that the installers accept. -/
theorem Tool.entries_of_buildBundle {source : Artifact → Tool.SourceFile} {artifacts : List Artifact}
    (h : HeadersAgree artifacts) {archive : List UInt8}
    (hrun : Tool.buildBundle digest source artifacts = .ok archive) :
    ∃ payloads tail, Entries digest artifacts payloads archive tail ∧ EndMarkers tail := by
  obtain ⟨compressed, hloop, hrun⟩ := exists_of_bind_ok hrun
  obtain ⟨payloads, written, rfl, hentries⟩ := Tool.entries_of_writeArtifact h hloop
  obtain rfl := Except.ok.inj hrun
  refine ⟨payloads, List.replicate 1024 0, hentries _, ⟨?_, ?_, ?_, ?_⟩⟩
  · exact fun byte hbyte => (List.mem_replicate.mp hbyte).2
  · rw [List.length_replicate]
  · rw [List.length_replicate]
    decide
  · rw [List.length_replicate]
    decide

/-- **The transport.** For every accepted manifest the headers fit their fields and are the same on both
sides; the installer of the host accepts exactly the archives that consist of the entries and the end
markers, and creates the files of the payloads; the installer of the tool does the same, whatever the
pieces; and both accept what the tool writes. -/
theorem transport_canonical (digest : List UInt8 → Text) (value accepted : ReleaseManifest)
    (h : parseManifest value = .ok accepted) :
    (∀ artifact ∈ accepted.artifacts, (asBytes artifact.filename).length ≤ 100 ∧
      ∃ block, header artifact = .ok block ∧ headerOf artifact = .ok block ∧ block.length = 512) ∧
    (∀ (stage : List Text) (bytes : List UInt8) (archive : Pieces UInt8)
      (tree : FileTree Text (List UInt8)), FreshStage tree stage →
        ((∃ tree', installTransport digest stage bytes accepted.artifacts archive tree = .ok tree') ↔
          ∃ payloads tail, Entries digest accepted.artifacts payloads archive.flatten tail ∧
            EndMarkers tail) ∧
        ∀ tree', installTransport digest stage bytes accepted.artifacts archive tree = .ok tree' →
          ∃ payloads tail, Entries digest accepted.artifacts payloads archive.flatten tail ∧
            EndMarkers tail ∧
            Installed tree tree' stage (payloadOf accepted.artifacts payloads) bytes
              accepted.artifacts ∧
            ∀ entry ∈ accepted.artifacts.zip payloads,
              tree' (target stage entry.1) = some (.file entry.2)) ∧
    (∀ (stage : List Text) (bytes : List UInt8) (archive archive' : Pieces UInt8)
      (tree tree' : FileTree Text (List UInt8)), archive.flatten = archive'.flatten →
        (installTransport digest stage bytes accepted.artifacts archive tree = .ok tree' ↔
          Tool.installTransport digest stage bytes accepted.artifacts archive' tree = .ok tree')) ∧
    ∀ (source : Artifact → Tool.SourceFile) (stream : List UInt8),
      Tool.buildBundle digest source accepted.artifacts = .ok stream →
        ∀ (stage : List Text) (bytes : List UInt8) (archive : Pieces UInt8)
          (tree : FileTree Text (List UInt8)), FreshStage tree stage → archive.flatten = stream →
            (∃ tree', installTransport digest stage bytes accepted.artifacts archive tree =
              .ok tree') ∧
            ∃ tree', Tool.installTransport digest stage bytes accepted.artifacts archive tree =
              .ok tree' := by
  obtain ⟨haccepted, rfl⟩ := parseManifest_eq_ok_iff.mp h
  have hcanonical := haccepted.canonical
  have hlength := haccepted.identified.length_le
  have hheaders : HeadersAgree accepted.artifacts := fun artifact hmem =>
    hcanonical.header_eq hlength hmem
  have haccepts (stage : List Text) (bytes : List UInt8) (archive : List UInt8)
      (tree : FileTree Text (List UInt8)) (hstage : FreshStage tree stage)
      {payloads : List (List UInt8)} {tail : List UInt8}
      (hentries : Entries digest accepted.artifacts payloads archive tail) :
      ∃ tree', (∃ tree₁, tree.createFiles (payloadFiles stage accepted.artifacts payloads) = .ok tree₁ ∧
        tree₁.write (joinPath stage "manifest.json".toList) bytes = .ok tree') ∧
          Installed tree tree' stage (payloadOf accepted.artifacts payloads) bytes
            accepted.artifacts := by
    obtain ⟨tree', hcreate, hinstalled⟩ := materialise_ok hcanonical haccepted.conflictFree hstage
      (payloadOf accepted.artifacts payloads) bytes
    exact ⟨tree', (hentries.materialise_iff hcanonical).mpr hcreate, hinstalled⟩
  refine ⟨fun artifact hmem => ⟨hcanonical.length_filename_le hlength hmem, hheaders artifact hmem⟩,
    fun stage bytes archive tree hstage => ⟨⟨?_, ?_⟩, fun tree' hrun => ?_⟩,
    fun stage bytes archive archive' tree tree' harchive => ?_,
    fun source stream hwrite stage bytes archive tree hstage harchive => ?_⟩
  · rintro ⟨tree', hrun⟩
    obtain ⟨payloads, tail, hentries, hmarkers, -⟩ := (installTransport_eq_ok_iff hheaders).mp hrun
    exact ⟨payloads, tail, hentries, hmarkers⟩
  · rintro ⟨payloads, tail, hentries, hmarkers⟩
    obtain ⟨tree', hfiles, -⟩ := haccepts stage bytes _ tree hstage hentries
    exact ⟨tree', (installTransport_eq_ok_iff hheaders).mpr
      ⟨payloads, tail, hentries, hmarkers, hfiles⟩⟩
  · obtain ⟨payloads, tail, hentries, hmarkers, hfiles⟩ :=
      (installTransport_eq_ok_iff hheaders).mp hrun
    obtain ⟨tree'', hfiles', hinstalled⟩ := haccepts stage bytes _ tree hstage hentries
    have hcreate := (hentries.materialise_iff hcanonical).mp hfiles
    have hcreate' := (hentries.materialise_iff hcanonical).mp hfiles'
    obtain rfl := Except.ok.inj (hcreate.symm.trans hcreate')
    refine ⟨payloads, tail, hentries, hmarkers, hinstalled, fun entry hentry => ?_⟩
    rw [hinstalled.artifact entry.1 (List.of_mem_zip hentry).1,
      payloadOf_of_mem hcanonical.nodup hentries.length_eq hentry]
  · rw [installTransport_eq_ok_iff hheaders, Tool.installTransport_eq_ok_iff hheaders, harchive]
  · obtain ⟨payloads, tail, hentries, hmarkers⟩ := Tool.entries_of_buildBundle hheaders hwrite
    rw [← harchive] at hentries
    obtain ⟨tree', hfiles, -⟩ := haccepts stage bytes _ tree hstage hentries
    exact ⟨⟨tree', (installTransport_eq_ok_iff hheaders).mpr
      ⟨payloads, tail, hentries, hmarkers, hfiles⟩⟩, tree',
      (Tool.installTransport_eq_ok_iff hheaders).mpr ⟨payloads, tail, hentries, hmarkers, hfiles⟩⟩

/-- The digest of the three letters. -/
def abcDigest : Text :=
  "ba7816bf8f01cfea414140de5dae2223b00361a396177a9cb410ff61f20015ad".toList

/-- Artifacts of three letters each. -/
def abcArtifacts : List Artifact :=
  exampleArtifacts.map fun artifact => { artifact with sha256 := abcDigest }

theorem transport_canonical_example :
    ∃ stream, Tool.buildBundle (fun _ => abcDigest)
        (fun _ => ⟨asBytes "abc".toList, [asBytes "ab".toList, asBytes "c".toList],
          asBytes "abc".toList⟩) abcArtifacts = .ok stream ∧
      ∃ tree', installTransport (fun _ => abcDigest) ["stage".toList] [] abcArtifacts
        [stream.take 700, stream.drop 700] exampleTree = .ok tree' := by
  have hbuilt : (Tool.buildBundle (fun _ => abcDigest)
      (fun _ => ⟨asBytes "abc".toList, [asBytes "ab".toList, asBytes "c".toList],
        asBytes "abc".toList⟩) abcArtifacts).isOk = true := by decide +kernel
  obtain ⟨stream, hstream⟩ := exists_of_isOk hbuilt
  have hok : (parseManifest { exampleManifest with artifacts := abcArtifacts }).isOk = true := by
    decide +kernel
  obtain ⟨accepted, hparse⟩ := exists_of_isOk hok
  have haccepted := (parseManifest_eq_ok_iff.mp hparse).2
  subst haccepted
  obtain ⟨-, -, -, hwriter⟩ := transport_canonical (fun _ => abcDigest) _ _ hparse
  refine ⟨stream, hstream, (hwriter _ stream hstream ["stage".toList] [] _ exampleTree
    exampleTree_fresh ?_).1⟩
  rw [List.flatten_cons, List.flatten_cons, List.flatten_nil, List.append_nil, List.take_append_drop]

end VllmOxide.Release
