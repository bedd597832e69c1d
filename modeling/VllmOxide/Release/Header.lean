import VllmOxide.Release.Inventory

/-!
# Archive headers

Each artifact has a header of 512 bytes in the archive. The host writes the fields into a block of
zeros, where a field of the wrong length is a panic. The tool that builds a release joins the fields and
then replaces the checksum. For the artifacts of an accepted manifest every number fits its field, and
the headers are the same.

## Main definitions

* `header`: the header of the host.
* `tobuf`, `headerOf`: the header of the tool.
* `ustarFields`: the fields that both write.

## Main results

* `header_eq`, `headerOf_eq`: both headers consist of the fields.
-/

namespace VllmOxide.Release

/-- `as_bytes`. -/
def asBytes (value : Text) : List UInt8 :=
  value.flatMap String.utf8EncodeChar

/-- A number in octal digits, at least `width` of them. -/
def octalDigits (width number : ℕ) : Text :=
  zeroPadded width (Nat.toDigits 8 number)

/-! ### The host -/

/-- `bytes[start..start + len].copy_from_slice(source)`. -/
def copyFromSlice (bytes : List UInt8) (start len : ℕ) (source : List UInt8) :
    Except String (List UInt8) :=
  if bytes.length < start + len then .error "range end index out of range for slice"
  else if source.length ≠ len then
    .error "copy_from_slice: source slice length does not match destination slice length"
  else .ok (bytes.take start ++ source ++ bytes.drop (start + len))

/-- The sum of the bytes. -/
def byteSum (bytes : List UInt8) : ℕ :=
  (bytes.map UInt8.toNat).sum

/-- `header`. -/
def header (artifact : Artifact) : Except String (List UInt8) := do
  let bytes := List.replicate 512 0
  let filename := asBytes artifact.filename
  let bytes ← copyFromSlice bytes 0 filename.length filename
  let bytes ← [(100, 8, 420), (108, 8, 0), (116, 8, 0), (124, 12, artifact.sizeBytes),
      (136, 12, 0)].foldlM (fun bytes (field : ℕ × ℕ × ℕ) =>
    copyFromSlice bytes field.1 field.2.1
      (asBytes (octalDigits (field.2.1 - 1) field.2.2 ++ ['\x00']))) bytes
  let bytes ← copyFromSlice bytes 148 8 (List.replicate 8 32)
  let bytes ← copyFromSlice bytes 156 1 [48]
  let bytes ← copyFromSlice bytes 257 6 (asBytes "ustar\x00".toList)
  let bytes ← copyFromSlice bytes 263 2 (asBytes "00".toList)
  let checksum := byteSum bytes
  copyFromSlice bytes 148 8 (asBytes (octalDigits 6 checksum ++ "\x00 ".toList))

/-! ### The tool -/

/-- `tarfile.stn`. -/
def stn (value : Text) (length : ℕ) : List UInt8 :=
  (asBytes value).take length ++ List.replicate (length - (asBytes value).length) 0

/-- `tarfile.itn`, in the USTAR format. -/
def itn (n digits : ℕ) : Except String (List UInt8) :=
  if n < 8 ^ (digits - 1) then .ok (asBytes (octalDigits (digits - 1) n) ++ [0])
  else .error "overflow in number field"

/-- `struct.pack("512s", …)`. -/
def pack (bytes : List UInt8) : List UInt8 :=
  bytes.take 512 ++ List.replicate (512 - bytes.length) 0

/-- `tarfile.calc_chksums`, of which the unsigned sum is used. -/
def calcChksums (buf : List UInt8) : ℕ :=
  256 + (byteSum (buf.take 148) + byteSum ((buf.drop 156).take 356))

/-- `TarInfo.tobuf` of a regular file in the USTAR format, whose name is not split. The fields of
devices are empty. -/
def tobuf (name : Text) (size mode : ℕ) : Except String (List UInt8) := do
  let mode ← itn mode 8
  let uid ← itn 0 8
  let gid ← itn 0 8
  let size ← itn size 12
  let mtime ← itn 0 12
  let parts := [stn name 100, mode, uid, gid, size, mtime, asBytes "        ".toList,
    asBytes "0".toList, stn [] 100, asBytes "ustar\x0000".toList, stn [] 32, stn [] 32, stn [] 8,
    stn [] 8, stn [] 155]
  let buf := pack parts.flatten
  let chksum := calcChksums (buf.drop (buf.length - 512))
  return buf.take (buf.length - 364) ++ asBytes (octalDigits 6 chksum ++ ['\x00']) ++
    buf.drop (buf.length - 357)

/-- `_header`. A name of more than 100 bytes would be split in two. -/
def headerOf (item : Artifact) : Except String (List UInt8) :=
  if 100 < (asBytes item.filename).length then .error "name is too long"
  else tobuf item.filename item.sizeBytes 420

/-! ### Digits -/

theorem asBytes_append (value other : Text) : asBytes (value ++ other) = asBytes value ++ asBytes other :=
  List.flatMap_append

theorem length_asBytes (value : Text) : (asBytes value).length = byteLength value := by
  rw [asBytes, List.length_flatMap, byteLength]
  simp only [String.length_utf8EncodeChar]

theorem isAscii_of_isDigit {value : Text} (h : value.all Char.isDigit = true) :
    isAscii value = true := by
  rw [isAscii, List.all_eq_true]
  intro c hc
  have hdigit := List.all_eq_true.mp h c hc
  rw [Char.isDigit, Bool.and_eq_true, decide_eq_true_iff, decide_eq_true_iff] at hdigit
  exact decide_eq_true_iff.mpr (UInt32.lt_of_le_of_lt hdigit.2 (by decide))

/-- A number that is small enough fills its width exactly. -/
theorem length_octalDigits {width number : ℕ} (hwidth : 0 < width) (h : number < 8 ^ width) :
    (asBytes (octalDigits width number)).length = width := by
  have hdigits : (Nat.toDigits 8 number).length ≤ width :=
    (Nat.length_toDigits_le_iff (by decide) hwidth).mpr h
  have hascii : isAscii (octalDigits width number) = true :=
    isAscii_of_isDigit (isDigit_zeroPadded width (by decide) (by decide) number)
  rw [length_asBytes, byteLength_of_isAscii hascii, octalDigits, length_zeroPadded hdigits]

/-! ### The fields -/

/-- The field of a number. -/
def numberField (width number : ℕ) : List UInt8 :=
  asBytes (octalDigits (width - 1) number ++ ['\x00'])

/-- The fields of a header, of which the checksum is left open. -/
def ustarFields (name : List UInt8) (size : ℕ) (checksum : List UInt8) : List (List UInt8) :=
  [name, List.replicate (100 - name.length) 0, numberField 8 420, numberField 8 0, numberField 8 0,
    numberField 12 size, numberField 12 0, checksum, [48], List.replicate 100 0,
    asBytes "ustar\x00".toList, asBytes "00".toList, List.replicate 247 0]

/-- The fields of a block of zeros. -/
def blankFields (name : List UInt8) : List (List UInt8) :=
  [List.replicate name.length 0, List.replicate (100 - name.length) 0, List.replicate 8 0,
    List.replicate 8 0, List.replicate 8 0, List.replicate 12 0, List.replicate 12 0,
    List.replicate 8 0, [0], List.replicate 100 0, List.replicate 6 0, List.replicate 2 0,
    List.replicate 247 0]

/-- Copying into a field. -/
theorem copyFromSlice_flatten {fields : List (List UInt8)} {i start len : ℕ} {field source : List UInt8}
    (hfield : fields[i]? = some field) (hstart : (fields.take i).flatten.length = start)
    (hlen : field.length = len) (hsource : source.length = len) :
    copyFromSlice fields.flatten start len source = .ok (fields.set i source).flatten := by
  obtain ⟨hi, rfl⟩ := List.getElem?_eq_some_iff.mp hfield
  have hsplit : fields.flatten =
      (fields.take i).flatten ++ (fields[i] ++ (fields.drop (i + 1)).flatten) := by
    rw [← List.flatten_cons, ← List.drop_eq_getElem_cons hi, ← List.flatten_append,
      List.take_append_drop]
  have hset : (fields.set i source).flatten =
      (fields.take i).flatten ++ source ++ (fields.drop (i + 1)).flatten := by
    rw [List.set_eq_take_append_cons_drop, if_pos hi, List.flatten_append, List.flatten_cons,
      List.append_assoc]
  have hlength : ¬ fields.flatten.length < start + len := by
    rw [hsplit, List.length_append, List.length_append, hstart, hlen]
    omega
  have hdrop : fields.flatten.drop (start + len) = (fields.drop (i + 1)).flatten := by
    rw [hsplit, ← List.append_assoc]
    exact List.drop_left' (by rw [List.length_append, hstart, hlen])
  have htake : fields.flatten.take start = (fields.take i).flatten := by
    rw [hsplit, List.take_left' hstart]
  rw [copyFromSlice, if_neg hlength, if_neg (not_not.mpr hsource), hset, hdrop, htake]

theorem length_numberField {width number : ℕ} (hwidth : 1 < width) (h : number < 8 ^ (width - 1)) :
    (numberField width number).length = width := by
  have hdigits := length_octalDigits (Nat.sub_pos_of_lt hwidth) h
  have hnul : (asBytes ['\x00']).length = 1 := rfl
  rw [numberField, asBytes_append, List.length_append, hdigits, hnul]
  omega

/-- The number of the checksum. -/
def checksumOf (name : List UInt8) (size : ℕ) : ℕ :=
  byteSum (ustarFields name size (List.replicate 8 32)).flatten

/-- The field of the checksum. -/
def checksumField (number : ℕ) : List UInt8 :=
  asBytes (octalDigits 6 number ++ "\x00 ".toList)

theorem byteSum_le (bytes : List UInt8) : byteSum bytes ≤ bytes.length * 255 := by
  have hsum := List.sum_le_card_nsmul (bytes.map UInt8.toNat) 255 fun value hvalue => by
    obtain ⟨byte, -, rfl⟩ := List.mem_map.mp hvalue
    exact Nat.le_of_lt_succ byte.toNat_lt
  rw [List.length_map] at hsum
  exact hsum

/-- The lengths of the fields. -/
def fieldLengths (name : List UInt8) : List ℕ :=
  [name.length, 100 - name.length, 8, 8, 8, 12, 12, 8, 1, 100, 6, 2, 247]

/-- Copying into a field keeps the lengths of the fields. -/
theorem copyFromSlice_field {fields : List (List UInt8)} {lengths : List ℕ}
    (hfields : fields.map List.length = lengths) (i start : ℕ) {len : ℕ} (source : List UInt8)
    (hlen : lengths[i]? = some len) (hstart : (lengths.take i).sum = start)
    (hsource : source.length = len) :
    copyFromSlice fields.flatten start len source = .ok (fields.set i source).flatten ∧
      (fields.set i source).map List.length = lengths := by
  subst hfields
  rw [List.getElem?_map, Option.map_eq_some_iff] at hlen
  obtain ⟨field, hfield, hlength⟩ := hlen
  constructor
  · refine copyFromSlice_flatten hfield ?_ hlength hsource
    rw [List.length_flatten, List.map_take, hstart]
  · have hlengths : (fields.map List.length)[i]? = some len := by
      rw [List.getElem?_map, hfield, Option.map_some, hlength]
    obtain ⟨hi, hget⟩ := List.getElem?_eq_some_iff.mp hlengths
    rw [List.map_set, hsource, ← hget, List.set_getElem_self]

theorem length_ustarFields {name : List UInt8} {size : ℕ} {checksum : List UInt8}
    (hsize : size < 8 ^ 11) (hchecksum : checksum.length = 8) :
    (ustarFields name size checksum).map List.length = fieldLengths name := by
  have hnumber : (numberField 12 size).length = 12 := length_numberField (by decide) hsize
  simp only [ustarFields, List.map_cons, List.map_nil, List.length_replicate, hchecksum, hnumber]
  rfl

theorem sum_fieldLengths {name : List UInt8} (hname : name.length ≤ 100) :
    (fieldLengths name).sum = 512 := by
  simp only [fieldLengths, List.sum_cons, List.sum_nil]
  omega

/-- The checksum fits its field. -/
theorem length_checksumField {name : List UInt8} {size : ℕ} (hname : name.length ≤ 100)
    (hsize : size < 8 ^ 11) : (checksumField (checksumOf name size)).length = 8 := by
  have hsum := byteSum_le (ustarFields name size (List.replicate 8 32)).flatten
  rw [List.length_flatten, length_ustarFields hsize List.length_replicate,
    sum_fieldLengths hname] at hsum
  have hdigits : (asBytes (octalDigits 6 (checksumOf name size))).length = 6 :=
    length_octalDigits (by decide) (hsum.trans_lt (by decide))
  rw [checksumField, asBytes_append, List.length_append, hdigits]
  rfl

theorem blankFields_flatten {name : List UInt8} (hname : name.length ≤ 100) :
    (blankFields name).flatten = List.replicate 512 0 := by
  rw [List.eq_replicate_iff]
  constructor
  · have hlengths : (blankFields name).map List.length = fieldLengths name := by
      simp only [blankFields, List.map_cons, List.map_nil, List.length_replicate]
      rfl
    rw [List.length_flatten, hlengths, sum_fieldLengths hname]
  · intro byte hbyte
    obtain ⟨field, hfield, hbyte⟩ := List.mem_flatten.mp hbyte
    simp only [blankFields, List.mem_cons, List.not_mem_nil, or_false] at hfield
    rcases hfield with rfl | rfl | rfl | rfl | rfl | rfl | rfl | rfl | rfl | rfl | rfl | rfl | rfl
    all_goals first
      | exact (List.mem_replicate.mp hbyte).2
      | exact List.mem_singleton.mp hbyte

/-- **The header of the host** consists of the fields. -/
theorem header_eq {artifact : Artifact} (hname : (asBytes artifact.filename).length ≤ 100)
    (hsize : artifact.sizeBytes < 8 ^ 11) :
    header artifact = .ok (ustarFields (asBytes artifact.filename) artifact.sizeBytes
      (checksumField (checksumOf (asBytes artifact.filename) artifact.sizeBytes))).flatten := by
  have hblank : (blankFields (asBytes artifact.filename)).map List.length =
      fieldLengths (asBytes artifact.filename) := by
    simp only [blankFields, List.map_cons, List.map_nil, List.length_replicate]
    rfl
  have hstart {rest : ℕ} : (asBytes artifact.filename).length +
      (100 - (asBytes artifact.filename).length + rest) = 100 + rest := by omega
  obtain ⟨hfilename, h₀⟩ := copyFromSlice_field hblank 0 0 (asBytes artifact.filename) rfl rfl rfl
  obtain ⟨hmode, h₁⟩ := copyFromSlice_field h₀ 2 100 (numberField 8 420) rfl hstart rfl
  obtain ⟨huid, h₂⟩ := copyFromSlice_field h₁ 3 108 (numberField 8 0) rfl hstart rfl
  obtain ⟨hgid, h₃⟩ := copyFromSlice_field h₂ 4 116 (numberField 8 0) rfl hstart rfl
  obtain ⟨hsizes, h₄⟩ := copyFromSlice_field h₃ 5 124 (numberField 12 artifact.sizeBytes) rfl hstart
    (length_numberField (by decide) hsize)
  obtain ⟨hmtime, h₅⟩ := copyFromSlice_field h₄ 6 136 (numberField 12 0) rfl hstart rfl
  obtain ⟨hspaces, h₆⟩ := copyFromSlice_field h₅ 7 148 (List.replicate 8 32) rfl hstart rfl
  obtain ⟨htype, h₇⟩ := copyFromSlice_field h₆ 8 156 [48] rfl hstart rfl
  obtain ⟨hmagic, h₈⟩ := copyFromSlice_field h₇ 10 257 (asBytes "ustar\x00".toList) rfl hstart rfl
  obtain ⟨hversion, h₉⟩ := copyFromSlice_field h₈ 11 263 (asBytes "00".toList) rfl hstart rfl
  obtain ⟨hchecksum, -⟩ := copyFromSlice_field h₉ 7 148 (checksumField
    (checksumOf (asBytes artifact.filename) artifact.sizeBytes)) rfl hstart (length_checksumField hname hsize)
  rw [blankFields_flatten hname] at hfilename
  have hnumbers : [(100, 8, 420), (108, 8, 0), (116, 8, 0), (124, 12, artifact.sizeBytes),
      (136, 12, 0)].foldlM (fun bytes (field : ℕ × ℕ × ℕ) =>
        copyFromSlice bytes field.1 field.2.1
          (asBytes (octalDigits (field.2.1 - 1) field.2.2 ++ ['\x00']))) _ = .ok _ :=
    bind_eq_ok_iff.mpr ⟨_, hmode, bind_eq_ok_iff.mpr ⟨_, huid, bind_eq_ok_iff.mpr ⟨_, hgid,
      bind_eq_ok_iff.mpr ⟨_, hsizes, bind_eq_ok_iff.mpr ⟨_, hmtime, rfl⟩⟩⟩⟩⟩
  refine bind_eq_ok_iff.mpr ⟨_, hfilename, ?_⟩
  refine bind_eq_ok_iff.mpr ⟨_, hnumbers, ?_⟩
  refine bind_eq_ok_iff.mpr ⟨_, hspaces, ?_⟩
  refine bind_eq_ok_iff.mpr ⟨_, htype, ?_⟩
  refine bind_eq_ok_iff.mpr ⟨_, hmagic, ?_⟩
  refine bind_eq_ok_iff.mpr ⟨_, hversion, ?_⟩
  exact hchecksum

/-- The fields in front of the checksum. -/
def frontFields (name : List UInt8) (size : ℕ) : List UInt8 :=
  ((ustarFields name size []).take 7).flatten

/-- The fields behind the checksum. -/
def backFields : List UInt8 :=
  [48] ++ List.replicate 100 0 ++ asBytes "ustar\x00".toList ++ asBytes "00".toList ++
    List.replicate 247 0

theorem flatten_ustarFields (name : List UInt8) (size : ℕ) (checksum : List UInt8) :
    (ustarFields name size checksum).flatten =
      frontFields name size ++ (checksum ++ backFields) := by
  simp only [ustarFields, frontFields, backFields, List.take_succ_cons, List.take_zero,
    List.flatten_cons, List.flatten_nil, List.append_assoc, List.append_nil]

theorem length_backFields : backFields.length = 356 := by
  simp only [backFields, List.length_append, List.length_replicate, List.length_singleton]
  rfl

theorem length_frontFields {name : List UInt8} {size : ℕ} (hname : name.length ≤ 100)
    (hsize : size < 8 ^ 11) : (frontFields name size).length = 148 := by
  have hlengths : (ustarFields name size (List.replicate 8 0)).map List.length = fieldLengths name :=
    length_ustarFields hsize List.length_replicate
  have hsum := sum_fieldLengths hname
  rw [← hlengths, ← List.length_flatten, flatten_ustarFields, List.length_append, List.length_append,
    List.length_replicate, length_backFields] at hsum
  omega

theorem itn_eq {n digits : ℕ} (h : n < 8 ^ (digits - 1)) : itn n digits = .ok (numberField digits n) := by
  rw [itn, if_pos h, numberField, asBytes_append]
  rfl

/-- The parts that the tool joins are the fields with spaces for the checksum. -/
theorem pack_parts {name : Text} {size : ℕ} (hname : (asBytes name).length ≤ 100)
    (hsize : size < 8 ^ 11) :
    pack [stn name 100, numberField 8 420, numberField 8 0, numberField 8 0, numberField 12 size,
      numberField 12 0, asBytes "        ".toList, asBytes "0".toList, stn [] 100,
      asBytes "ustar\x0000".toList, stn [] 32, stn [] 32, stn [] 8, stn [] 8, stn [] 155].flatten =
      frontFields (asBytes name) size ++ (List.replicate 8 32 ++ backFields) := by
  have hstn : stn name 100 = asBytes name ++ List.replicate (100 - (asBytes name).length) 0 := by
    rw [stn, List.take_of_length_le hname]
  have hparts : [stn name 100, numberField 8 420, numberField 8 0, numberField 8 0,
      numberField 12 size, numberField 12 0, asBytes "        ".toList, asBytes "0".toList, stn [] 100,
      asBytes "ustar\x0000".toList, stn [] 32, stn [] 32, stn [] 8, stn [] 8, stn [] 155].flatten ++
        List.replicate 12 0 =
      frontFields (asBytes name) size ++ (List.replicate 8 32 ++ backFields) := by
    have hblank : stn [] 32 ++ (stn [] 32 ++ (stn [] 8 ++ (stn [] 8 ++ (stn [] 155 ++
        List.replicate 12 0)))) = List.replicate 247 0 := by decide +kernel
    have hmagic : asBytes "ustar\x0000".toList =
        asBytes "ustar\x00".toList ++ asBytes "00".toList := by decide
    simp only [List.flatten_cons, List.flatten_nil, List.append_assoc, List.nil_append, hblank, hmagic,
      hstn, frontFields, ustarFields, backFields, List.take_succ_cons, List.take_zero]
    rfl
  have hlength := congrArg List.length hparts
  rw [List.length_append, List.length_append, List.length_append, length_frontFields hname hsize,
    length_backFields, List.length_replicate, List.length_replicate] at hlength
  rw [pack, List.take_of_length_le (by omega), ← hparts]
  congr 2
  omega

/-- **The header of the tool** consists of the same fields. -/
theorem headerOf_eq {item : Artifact} (hname : (asBytes item.filename).length ≤ 100)
    (hsize : item.sizeBytes < 8 ^ 11) :
    headerOf item = .ok (ustarFields (asBytes item.filename) item.sizeBytes
      (checksumField (checksumOf (asBytes item.filename) item.sizeBytes))).flatten := by
  have hfront := length_frontFields hname hsize
  have hspaces : (List.replicate 8 (32 : UInt8)).length = 8 := List.length_replicate
  have hlength : (frontFields (asBytes item.filename) item.sizeBytes ++
      (List.replicate 8 32 ++ backFields)).length = 512 := by
    rw [List.length_append, List.length_append, hfront, hspaces, length_backFields]
  have htake : (frontFields (asBytes item.filename) item.sizeBytes ++
      (List.replicate 8 32 ++ backFields)).take 148 =
        frontFields (asBytes item.filename) item.sizeBytes := List.take_left' hfront
  have hdrop : (frontFields (asBytes item.filename) item.sizeBytes ++
      (List.replicate 8 32 ++ backFields)).drop 148 = List.replicate 8 32 ++ backFields :=
    List.drop_left' hfront
  have hsum : calcChksums (frontFields (asBytes item.filename) item.sizeBytes ++
      (List.replicate 8 32 ++ backFields)) =
        checksumOf (asBytes item.filename) item.sizeBytes := by
    have hback : (List.replicate 8 32 ++ backFields).drop 8 = backFields := List.drop_left' hspaces
    rw [calcChksums, htake, show 156 = 148 + 8 from rfl, ← List.drop_drop, hdrop, hback,
      List.take_of_length_le length_backFields.le, checksumOf, flatten_ustarFields]
    simp only [byteSum, List.map_append, List.sum_append]
    have h256 : ((List.replicate 8 (32 : UInt8)).map UInt8.toNat).sum = 256 := rfl
    omega
  have hfields : checksumField (checksumOf (asBytes item.filename) item.sizeBytes) ++ backFields =
      asBytes (octalDigits 6 (checksumOf (asBytes item.filename) item.sizeBytes) ++ ['\x00']) ++
        (List.replicate 8 32 ++ backFields).drop 7 := by
    rw [checksumField, asBytes_append, asBytes_append, List.append_assoc, List.append_assoc]
    rfl
  rw [headerOf, if_neg (not_lt.mpr hname), tobuf, itn_eq (by decide), itn_eq (by decide),
    itn_eq hsize, itn_eq (by decide), flatten_ustarFields, hfields]
  change Except.ok _ = _
  rw [pack_parts hname hsize, hlength]
  have hend : (frontFields (asBytes item.filename) item.sizeBytes ++
      (List.replicate 8 32 ++ backFields)).drop (512 - 357) =
        (List.replicate 8 32 ++ backFields).drop 7 := by
    rw [show 512 - 357 = 148 + 7 from rfl, ← List.drop_drop, hdrop]
  have hstart : (frontFields (asBytes item.filename) item.sizeBytes ++
      (List.replicate 8 32 ++ backFields)).take (512 - 364) =
        frontFields (asBytes item.filename) item.sizeBytes := htake
  rw [hend, hstart, Nat.sub_self, List.drop_zero, hsum, List.append_assoc]

/-- The name of an artifact of an accepted list fits its field. -/
theorem Canonical.length_filename_le {artifacts : List Artifact} (h : Canonical artifacts)
    (hlength : artifacts.length ≤ ARTIFACT_LIMIT) {artifact : Artifact} (hmem : artifact ∈ artifacts) :
    (asBytes artifact.filename).length ≤ 100 := by
  obtain ⟨index, hindex⟩ := List.mem_iff_getElem?.mp hmem
  have hlt : index < ARTIFACT_LIMIT := (List.getElem?_eq_some_iff.mp hindex).1.trans_le hlength
  have hdigits : (Nat.toDigits 10 index).length ≤ 6 :=
    (Nat.length_toDigits_le_iff (by decide) (by decide)).mpr (hlt.trans (by decide))
  have hascii : isAscii (zeroPadded 6 (Nat.toDigits 10 index)) = true :=
    isAscii_of_isDigit (isDigit_zeroPadded 6 (by decide) (by decide) index)
  have hnumber : (asBytes (zeroPadded 6 (Nat.toDigits 10 index))).length = 6 := by
    rw [length_asBytes, byteLength_of_isAscii hascii, length_zeroPadded hdigits]
  have hstart : (asBytes "artifact-".toList).length = 9 := rfl
  have hend : (asBytes ".bin".toList).length = 4 := rfl
  have hparts : asBytes (artifactFilename index) = asBytes "artifact-".toList ++
      asBytes (zeroPadded 6 (Nat.toDigits 10 index)) ++ asBytes ".bin".toList :=
    (asBytes_append _ _).trans (congrArg (· ++ _) (asBytes_append _ _))
  rw [h.filename index artifact hindex, hparts, List.length_append, List.length_append]
  omega

/-- **The headers agree** for every artifact of an accepted list, and every number fits its field. -/
theorem Canonical.header_eq {artifacts : List Artifact} (h : Canonical artifacts)
    (hlength : artifacts.length ≤ ARTIFACT_LIMIT) {artifact : Artifact} (hmem : artifact ∈ artifacts) :
    ∃ block, header artifact = .ok block ∧ headerOf artifact = .ok block ∧ block.length = 512 := by
  have hname := h.length_filename_le hlength hmem
  have hlimit : FILE_LIMIT < 8 ^ 11 := by simp [FILE_LIMIT]
  have hsize : artifact.sizeBytes < 8 ^ 11 := lt_of_le_of_lt (h.size artifact hmem) hlimit
  refine ⟨_, Release.header_eq hname hsize, headerOf_eq hname hsize, ?_⟩
  rw [List.length_flatten, length_ustarFields hsize (length_checksumField hname hsize),
    sum_fieldLengths hname]

end VllmOxide.Release
