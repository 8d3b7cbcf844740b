import Ambar.Format.Checksum
import Ambar.Lib.Parts
import Ambar.Table.Compress

/-!
# The shape of a table file

Blocks with their trailers, handles and the footer (`src/format.cpp`). Reading a file
does not fail here; whatever a handle says is checked against the file's size.

* `decodeFrom_encodeTo`: handles are read back.
* `Footer.decodeFrom_encodeTo`: and so is the footer.
* `readBlock_parts`: a block stored in a file is read back.
-/

namespace Ambar

open Lib (offsetAt)

/-! ## Handles -/

/-- `class BlockHandle`. -/
structure BlockHandle where
  offset : ℕ
  size : ℕ
deriving DecidableEq, Repr

namespace BlockHandle

/-- `kMaxEncodedLength`: two numbers of ten bytes. -/
def kMaxEncodedLength : ℕ := 20

/-- `encode_to` (lines 14–17). -/
def encodeTo (h : BlockHandle) : Bytes := putVarint h.offset ++ putVarint h.size

/-- `decode_from` (lines 19–24): the handle and the input after it. -/
def decodeFrom (input : Bytes) : Except Status (BlockHandle × Bytes) :=
  match getVarint64 input with
  | none => .error (.corruption "bad block handle")
  | some (offset, input) =>
    match getVarint64 input with
    | none => .error (.corruption "bad block handle")
    | some (size, input) => .ok (⟨offset, size⟩, input)

/-- The handle's numbers fit their type. -/
def Fits (h : BlockHandle) : Prop := h.offset < 2 ^ 64 ∧ h.size < 2 ^ 64

theorem decodeFrom_encodeTo {h : BlockHandle} (hh : h.Fits) (rest : Bytes) :
    decodeFrom (h.encodeTo ++ rest) = .ok (h, rest) := by
  rw [decodeFrom, encodeTo, List.append_assoc, getVarint64_put hh.1]
  simp only
  rw [getVarint64_put hh.2]

theorem length_encodeTo_le {h : BlockHandle} (hh : h.Fits) : h.encodeTo.length ≤ kMaxEncodedLength := by
  have h1 := @length_putVarint_le 9 h.offset (hh.1.trans (by norm_num))
  have h2 := @length_putVarint_le 9 h.size (hh.2.trans (by norm_num))
  rw [encodeTo, List.length_append]
  unfold kMaxEncodedLength
  omega

end BlockHandle

/-! ## The footer -/

/-- `kTableMagicNumber`. -/
def kTableMagicNumber : ℕ := 0x9d4f2b6c1a73e850

/-- `class Footer`. -/
structure Footer where
  metaindexHandle : BlockHandle
  indexHandle : BlockHandle

namespace Footer

/-- `kEncodedLength`. -/
def kEncodedLength : ℕ := 2 * BlockHandle.kMaxEncodedLength + 8

/-- `encode_to` (lines 26–39); the handles are padded, or cut, to a fixed length. -/
def encodeTo (f : Footer) : Bytes :=
  let handles := f.metaindexHandle.encodeTo ++ f.indexHandle.encodeTo
  (handles ++ List.replicate (2 * BlockHandle.kMaxEncodedLength - handles.length) 0).take
      (2 * BlockHandle.kMaxEncodedLength) ++
    putFixed 4 (kTableMagicNumber &&& 0xffffffff) ++ putFixed 4 (kTableMagicNumber >>> 32)

/-- `decode_from` (lines 41–62). -/
def decodeFrom (input : Bytes) : Except Status Footer :=
  if input.length < kEncodedLength then
    .error (.corruption "file is too short to hold a table footer")
  else
    let magicPtr := input.drop (kEncodedLength - 8)
    let magic := decodeFixed ((magicPtr.drop 4).take 4) <<< 32 ||| decodeFixed (magicPtr.take 4)
    if magic ≠ kTableMagicNumber then
      .error (.corruption "not an Ambar table file (bad magic number)")
    else do
      let (metaindexHandle, remaining) ← BlockHandle.decodeFrom (input.take (kEncodedLength - 8))
      let (indexHandle, _) ← BlockHandle.decodeFrom remaining
      .ok ⟨metaindexHandle, indexHandle⟩

theorem length_encodeTo (f : Footer) : f.encodeTo.length = kEncodedLength := by
  simp only [encodeTo, List.length_append, List.length_take, List.length_replicate, length_putFixed]
  unfold kEncodedLength
  omega

theorem decodeFrom_encodeTo {f : Footer} (hm : f.metaindexHandle.Fits) (hi : f.indexHandle.Fits) :
    decodeFrom f.encodeTo = .ok f := by
  have hlm := BlockHandle.length_encodeTo_le hm
  have hli := BlockHandle.length_encodeTo_le hi
  generalize hpadding : List.replicate (2 * BlockHandle.kMaxEncodedLength -
    (f.metaindexHandle.encodeTo ++ f.indexHandle.encodeTo).length) (0 : UInt8) = padding
  have hhandles : (f.metaindexHandle.encodeTo ++ f.indexHandle.encodeTo ++ padding).length =
      kEncodedLength - 8 := by
    rw [List.length_append, ← hpadding, List.length_replicate, List.length_append]
    unfold kEncodedLength
    omega
  have hbytes : f.encodeTo = f.metaindexHandle.encodeTo ++ f.indexHandle.encodeTo ++ padding ++
      (putFixed 4 (kTableMagicNumber &&& 0xffffffff) ++ putFixed 4 (kTableMagicNumber >>> 32)) := by
    rw [encodeTo, hpadding, List.take_of_length_le (by rw [hhandles]; unfold kEncodedLength; omega)]
    simp only [List.append_assoc]
  have hmagic : decodeFixed (putFixed 4 (kTableMagicNumber >>> 32)) <<< 32 |||
      decodeFixed (putFixed 4 (kTableMagicNumber &&& 0xffffffff)) = kTableMagicNumber := by decide +kernel
  unfold decodeFrom
  rw [if_neg (by rw [length_encodeTo]; omega)]
  simp only
  rw [hbytes, List.drop_left' hhandles, List.take_left' hhandles,
    List.drop_left' (length_putFixed 4 _), List.take_of_length_le (by rw [length_putFixed]),
    List.take_left' (length_putFixed 4 _), hmagic, if_neg (not_not.mpr rfl), List.append_assoc,
    BlockHandle.decodeFrom_encodeTo hm]
  simp only [bind, Except.bind]
  rw [BlockHandle.decodeFrom_encodeTo hi]

end Footer

/-! ## Blocks -/

/-- `enum class CompressionType : uint8_t`. -/
inductive CompressionType where
  | none
  | lz
deriving DecidableEq, Repr

def CompressionType.toByte : CompressionType → UInt8
  | .none => 0
  | .lz => 1

/-- `kBlockTrailerSize`. -/
def kBlockTrailerSize : ℕ := 5

/-- The bytes of a block and its trailer (`src/table_builder.cpp`, lines 122–134). -/
def blockBytes (contents : Bytes) (type : CompressionType) : Bytes :=
  contents ++ [type.toByte] ++
    putFixed 4 (crc32cExtend (crc32cExtend 0 contents) [type.toByte])

/-- `read_block` (`src/format.cpp`, lines 64–166). -/
def readBlock (file : Bytes) (handle : BlockHandle) : Except Status Bytes :=
  let n := handle.size
  if file.length < n ∨ file.length - n < handle.offset ∨
      file.length - handle.offset < n + kBlockTrailerSize then
    .error (.corruption ("block handle points outside the file: offset " ++ toString handle.offset ++
      ", size " ++ toString n ++ ", in a file of " ++ toString file.length ++ " bytes"))
  else
    let data := (file.drop handle.offset).take (n + kBlockTrailerSize)
    let stored := decodeFixed ((data.drop (n + 1)).take 4)
    let actual := crc32cExtend 0 (data.take (n + 1))
    if stored ≠ actual then
      .error (.corruption ("block checksum mismatch at offset " ++ toString handle.offset))
    else
      let type := data.getD n 0
      if type = CompressionType.none.toByte then .ok (data.take n)
      else if type = CompressionType.lz.toByte then
        match decompressBlock (data.take n) with
        | .ok decoded => .ok decoded
        | .error status => .error (.corruption ("compressed block at offset " ++
            toString handle.offset ++ " does not decode: " ++ status.message))
      else .error (.notSupported ("block at offset " ++ toString handle.offset ++
        " uses a compression this build cannot read (type " ++ toString type.toNat ++ ")"))

theorem length_blockBytes (contents : Bytes) (type : CompressionType) :
    (blockBytes contents type).length = contents.length + kBlockTrailerSize := by
  simp only [blockBytes, List.length_append, List.length_singleton, length_putFixed]
  unfold kBlockTrailerSize
  omega

/-- The block a reader gets from what is stored. -/
def decoded (contents : Bytes) : CompressionType → Except Status Bytes
  | .none => .ok contents
  | .lz => decompressBlock contents

/-- What `read_block` makes of bytes whose checksum is right (lines 106–166). -/
def checkedBlock (offset : ℕ) (type : UInt8) (contents : Bytes) : Except Status Bytes :=
  if type = CompressionType.none.toByte then .ok contents
  else if type = CompressionType.lz.toByte then
    match decompressBlock contents with
    | .ok decoded => .ok decoded
    | .error status => .error (.corruption ("compressed block at offset " ++
        toString offset ++ " does not decode: " ++ status.message))
  else .error (.notSupported ("block at offset " ++ toString offset ++
    " uses a compression this build cannot read (type " ++ toString type.toNat ++ ")"))

def checksumMismatch (offset : ℕ) : Status :=
  .corruption ("block checksum mismatch at offset " ++ toString offset)

/-- The check of a block, on its contents, its type and its four bytes of checksum. -/
theorem readBlock_checked {file contents crc rest : Bytes} {type : UInt8} {offset : ℕ}
    (hfile : file.drop offset = contents ++ [type] ++ crc ++ rest) (hcrc : crc.length = 4) :
    readBlock file ⟨offset, contents.length⟩ =
      if decodeFixed crc ≠ crc32cExtend 0 (contents ++ [type]) then .error (checksumMismatch offset)
      else checkedBlock offset type contents := by
  have hhead : (contents ++ [type]).length = contents.length + 1 := List.length_append
  have hblock : (contents ++ [type] ++ crc).length = contents.length + 5 := by
    rw [List.length_append, hhead, hcrc]
  have hlen := congrArg List.length hfile
  rw [List.length_drop, List.length_append, hblock] at hlen
  have hdata : (file.drop offset).take (contents.length + 5) = contents ++ [type] ++ crc := by
    rw [hfile, List.take_left' hblock]
  have htype : (contents ++ [type] ++ crc).getD contents.length 0 = type := by
    rw [List.append_assoc, List.getD_eq_getElem?_getD, List.getElem?_append_right le_rfl, Nat.sub_self]
    rfl
  have htake : (contents ++ [type] ++ crc).take contents.length = contents := by
    rw [List.append_assoc, List.take_left]
  unfold readBlock kBlockTrailerSize
  simp only
  rw [if_neg (by omega), hdata, List.drop_left' hhead, List.take_left' hhead,
    List.take_of_length_le hcrc.le, htype, htake]
  rfl

/-- What the writer computes in two pieces, the reader computes in one. -/
theorem decodeFixed_storedCrc (contents : Bytes) (type : UInt8) :
    decodeFixed (putFixed 4 (crc32cExtend (crc32cExtend 0 contents) [type])) =
      crc32cExtend 0 (contents ++ [type]) := by
  have hcrc : crc32cExtend 0 (contents ++ [type]) < 256 ^ 4 := crc32cExtend_lt (by norm_num) _
  rw [crc32cExtend_append, decodeFixed_put hcrc]

/-- **A block of a file is read back** where its handle says. -/
theorem readBlock_blockBytes {file contents raw rest : Bytes} {type : CompressionType} {offset : ℕ}
    (hfile : file.drop offset = blockBytes contents type ++ rest)
    (hdecoded : decoded contents type = .ok raw) :
    readBlock file ⟨offset, contents.length⟩ = .ok raw := by
  rw [readBlock_checked hfile (length_putFixed _ _), decodeFixed_storedCrc,
    if_neg (not_not.mpr rfl)]
  cases type with
  | none => exact hdecoded
  | lz =>
    have hdecoded' : decompressBlock contents = .ok raw := hdecoded
    rw [checkedBlock, if_neg (by decide), if_pos rfl, hdecoded']

/-- A block among the parts a file is made of. -/
theorem readBlock_parts {parts : List Bytes} {i : ℕ} {contents raw : Bytes} {type : CompressionType}
    (hi : parts[i]? = some (blockBytes contents type)) (hdecoded : decoded contents type = .ok raw) :
    readBlock parts.flatten ⟨offsetAt parts i, contents.length⟩ = .ok raw := by
  obtain ⟨hlt, hget⟩ := List.getElem?_eq_some_iff.mp hi
  have hdrop := Lib.drop_offsetAt_cons hlt
  rw [hget] at hdrop
  exact readBlock_blockBytes hdrop hdecoded

end Ambar
