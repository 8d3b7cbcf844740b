import Ambar.Log.Reader
import Ambar.Table.Format

/-!
# Changed bytes of a block or a log record

A block is stored with its type and a checksum over both (`src/table_builder.cpp`,
lines 117–138), which `read_block` computes again over what it read (`src/format.cpp`,
lines 94–104): the writer in two pieces, the reader in one. A log record has its checksum
in front.

* `readBlock_set`: one changed byte of a stored block fails the check.
* `not_crcChecks_set`: so does one changed byte of a log record's type or payload.
* `changed_byte_fails_checksum`: both, and that unchanged bytes pass.
-/

namespace Ambar

/-! ## Blocks -/

theorem decodeFixed_injOn {a b : Bytes} (hlen : a.length = b.length) (h : decodeFixed a = decodeFixed b) :
    a = b := by
  rw [← putFixed_decodeFixed a, ← putFixed_decodeFixed b, hlen, h]

/-- A stored block whose bytes do not go together is refused. -/
theorem readBlock_mismatch {before body crc rest : Bytes} {n : ℕ} (hbody : body.length = n + 1)
    (hcrc : crc.length = 4) (hne : decodeFixed crc ≠ crc32cExtend 0 body) :
    readBlock (before ++ (body ++ crc) ++ rest) ⟨before.length, n⟩ =
      .error (checksumMismatch before.length) := by
  obtain ⟨contents, type, rfl⟩ : ∃ contents type, body = contents ++ [type] := by
    rcases List.eq_nil_or_concat body with rfl | ⟨contents, type, rfl⟩
    · cases hbody
    · exact ⟨contents, type, List.concat_eq_append⟩
  rw [List.length_append, List.length_singleton, Nat.add_right_cancel_iff] at hbody
  subst hbody
  have hfile : (before ++ (contents ++ [type] ++ crc) ++ rest).drop before.length =
      contents ++ [type] ++ crc ++ rest := by
    rw [List.append_assoc, List.drop_left]
  rw [readBlock_checked hfile hcrc, if_pos hne]

/-- **One changed byte of a stored block**: of its contents, of its type or of its checksum. -/
theorem readBlock_set {before contents rest : Bytes} {type : CompressionType} {byte : UInt8} {i : ℕ}
    (hi : i < (blockBytes contents type).length) (hne : byte ≠ (blockBytes contents type)[i]) :
    readBlock (before ++ (blockBytes contents type).set i byte ++ rest)
      ⟨before.length, contents.length⟩ = .error (checksumMismatch before.length) := by
  have hhead : (contents ++ [type.toByte]).length = contents.length + 1 := List.length_append
  have hstored := decodeFixed_storedCrc contents type.toByte
  unfold blockBytes at hi hne ⊢
  rcases Nat.lt_or_ge i (contents ++ [type.toByte]).length with hlt | hge
  · rw [List.getElem_append_left hlt] at hne
    rw [List.set_append_left _ _ hlt]
    refine readBlock_mismatch (by rw [List.length_set, hhead]) (length_putFixed _ _) ?_
    rw [hstored]
    exact (crc32cExtend_set (by decide) hlt hne).symm
  · rw [List.getElem_append_right hge] at hne
    rw [List.set_append_right _ _ hge]
    refine readBlock_mismatch hhead (by rw [List.length_set, length_putFixed]) fun heq => ?_
    have hsame := decodeFixed_injOn List.length_set (heq.trans hstored.symm)
    refine hne ?_
    rw [← List.getElem_of_eq hsame (by rw [List.length_set]; rw [List.length_append] at hi; omega),
      List.getElem_set_self]

/-! ## Log records -/

/-- Whether the checksum of the record at the start of the bytes is the one in its header
    (`src/wal.cpp`, lines 265–295). -/
def CrcChecks (p : Bytes) : Prop := actualCrc p (parseHeader p) = (parseHeader p).crc

theorem recordCrc_eq (typeByte : UInt8) (data : Bytes) :
    recordCrc typeByte data = crc32cExtend 0 (typeByte :: data) :=
  crc32cExtend_append 0 [typeByte] data

theorem crcChecks_framed {crc : ℕ} {typeByte : UInt8} {data rest : Bytes} (hcrc : crc < 2 ^ 32)
    (hlen : data.length < 65536) :
    CrcChecks (framed crc typeByte data ++ rest) ↔ recordCrc typeByte data = crc := by
  rw [CrcChecks, actualCrc_framed rest hcrc hlen, parseHeader_framed rest hcrc hlen]

/-- **One changed byte of a log record's type or payload**, which follow the first six bytes
    of the record. -/
theorem not_crcChecks_set {type : RecordType} {data rest : Bytes} {byte : UInt8} {i : ℕ}
    (hlen : data.length < 65536) (htype : 6 ≤ i) (hi : i < (physicalRecord type data).length)
    (hne : byte ≠ (physicalRecord type data)[i]) :
    ¬ CrcChecks ((physicalRecord type data).set i byte ++ rest) := by
  have hframed : ∀ crc t (d : Bytes), framed crc t d = (putFixed 4 crc ++
      [UInt8.ofNat (d.length % 256), UInt8.ofNat (d.length / 256 % 256)]) ++ (t :: d) := by
    simp [framed]
  have hsix : (putFixed 4 (recordCrc type.toByte data) ++ [UInt8.ofNat (data.length % 256),
      UInt8.ofNat (data.length / 256 % 256)]).length = 6 := by
    rw [List.length_append, length_putFixed]
    rfl
  rw [length_physicalRecord, kHeaderSize] at hi
  change byte ≠ (framed (recordCrc type.toByte data) type.toByte data)[i] at hne
  change ¬ CrcChecks ((framed (recordCrc type.toByte data) type.toByte data).set i byte ++ rest)
  simp only [hframed] at hne ⊢
  rw [List.getElem_append_right (by omega)] at hne
  rw [List.set_append_right _ _ (by omega)]
  simp only [hsix] at hne ⊢
  -- the changed record has another type or payload, of the same length
  obtain ⟨t, d, hset⟩ := List.exists_cons_of_length_pos
    (show 0 < ((type.toByte :: data).set (i - 6) byte).length by simp)
  have hd : d.length = data.length := by
    have := congrArg List.length hset
    simpa using this.symm
  rw [hset, ← hd, ← hframed, crcChecks_framed (recordCrc_lt _ _) (hd ▸ hlen), recordCrc_eq, recordCrc_eq,
    ← hset]
  exact crc32cExtend_set (by decide) (by simp; omega) hne

/-- **Stored bytes and their checksums.** A block is accepted as it was written, and refused
    with one changed byte; a log record passes its check as it was written, and fails it with
    one changed byte of its type or payload; and a checksum may be computed in pieces. -/
theorem changed_byte_fails_checksum :
    (∀ (before contents rest : Bytes) (type : CompressionType),
      readBlock (before ++ blockBytes contents type ++ rest) ⟨before.length, contents.length⟩ =
        checkedBlock before.length type.toByte contents ∧
      ∀ i byte (hi : i < (blockBytes contents type).length), byte ≠ (blockBytes contents type)[i] →
        readBlock (before ++ (blockBytes contents type).set i byte ++ rest)
          ⟨before.length, contents.length⟩ = .error (checksumMismatch before.length)) ∧
    (∀ (type : RecordType) (data rest : Bytes), data.length < 65536 →
      CrcChecks (physicalRecord type data ++ rest) ∧
      ∀ i byte (hi : i < (physicalRecord type data).length), 6 ≤ i →
        byte ≠ (physicalRecord type data)[i] →
        ¬ CrcChecks ((physicalRecord type data).set i byte ++ rest)) ∧
    ∀ a b : Bytes, crc32cExtend (crc32cExtend 0 a) b = crc32cExtend 0 (a ++ b) := by
  refine ⟨fun before contents rest type => ⟨?_, fun i byte hi hne => readBlock_set hi hne⟩,
    fun type data rest hlen => ⟨?_, fun i byte hi htype hne => not_crcChecks_set hlen htype hi hne⟩,
    crc32cExtend_append 0⟩
  · have hfile : (before ++ blockBytes contents type ++ rest).drop before.length =
        blockBytes contents type ++ rest := by
      rw [List.append_assoc, List.drop_left]
    rw [readBlock_checked hfile (length_putFixed _ _), decodeFixed_storedCrc, if_neg (not_not.mpr rfl)]
  · exact (crcChecks_framed (recordCrc_lt _ _) hlen).mpr rfl

end Ambar
