import Ambar.Log.Writer

/-!
# Reading a log

`LogReader` (`src/wal.cpp`, lines 93–352) reads a log block by block. It stops at the
first physical record that is not whole or does not verify, and looks past it for one
that does: only then is the stop damage and not a torn tail. Reads of the file do not
fail here.

* `parseHeader_physicalRecord`, `verifies_physicalRecord`: a record the writer wrote.
* `exists_physicalRecord_of_verifies`: bytes that verify are a physical record.
* `verifiesToBlockEnd_iff`: the search by bytes accepts intact chains of records.
* `scan_iff`: what the search by bytes finds.
-/

namespace Ambar

/-! ## Headers -/

/-- `struct Header` (lines 121–125); the type as its byte. -/
structure Header where
  crc : ℕ
  length : ℕ
  typeByte : UInt8

namespace Header

/-- The type, where the byte is one. -/
def type (h : Header) : Option RecordType := RecordType.ofByte h.typeByte

/-- `is_zeroed` (lines 137–139). -/
def isZeroed (h : Header) : Bool := decide (h.type = some .zero ∧ h.length = 0 ∧ h.crc = 0)

end Header

/-- `parse_header` (lines 127–132) on the bytes from the header on. -/
def parseHeader (p : Bytes) : Header :=
  ⟨decodeFixed (p.take 4), (p.getD 4 0).toNat ||| (p.getD 5 0).toNat <<< 8, p.getD 6 0⟩

/-- `known_type` (lines 141–144). -/
def knownType (t : Option RecordType) : Bool :=
  decide (t = some .full ∨ t = some .first ∨ t = some .middle ∨ t = some .last)

/-- The checksum of the record at `p` (lines 148–149, 292–293). -/
def actualCrc (p : Bytes) (h : Header) : ℕ :=
  recordCrc (p.getD 6 0) ((p.drop kHeaderSize).take h.length)

/-- `verifies` (lines 147–151). -/
def verifies (p : Bytes) (h : Header) : Bool :=
  decide (actualCrc p h = h.crc) && knownType h.type

/-! ## The search past a failure -/

/-- The loop of `verifies_to_block_end` (lines 173–190) on the bytes from its offset on;
    at most `turns` turns. -/
def verifiesFrom : (turns : ℕ) → (any : Bool) → Bytes → Bool
  | 0, _, _ => false
  | turns + 1, any, rest =>
    if kHeaderSize ≤ rest.length then
      let h := parseHeader rest
      if h.isZeroed then rest.all (· == 0) && any
      else if rest.length < kHeaderSize + h.length then false
      else if verifies rest h then verifiesFrom turns true (rest.drop (kHeaderSize + h.length))
      else false
    else rest.all (· == 0) && any

/-- `verifies_to_block_end` (lines 173–190). -/
def verifiesToBlockEnd (block : Bytes) (start : ℕ) : Bool :=
  verifiesFrom (block.length + 1) false (block.drop start)

/-- The walk by lengths (lines 210–221), on the bytes from its position on. -/
def walk : (turns : ℕ) → Bytes → Bool
  | 0, _ => false
  | turns + 1, rest =>
    if kHeaderSize ≤ rest.length then
      let h := parseHeader rest
      if h.isZeroed then walk turns (rest.drop 1)
      else if rest.length < kHeaderSize + h.length then false
      else if verifies rest h then true
      else walk turns (rest.drop (kHeaderSize + h.length))
    else false

/-- The search by bytes (lines 223–229). -/
def scan (block : Bytes) (scanFrom : ℕ) : Bool :=
  (List.range' scanFrom (block.length - scanFrom)).any fun at_ =>
    let rest := block.drop at_
    let h := parseHeader rest
    decide (kHeaderSize ≤ rest.length) && knownType h.type &&
      decide (kHeaderSize + h.length ≤ rest.length) && verifiesToBlockEnd block at_

/-- `readable_record_follows` (lines 206–241): in the block, then in the blocks of the
    file after it. -/
def readableRecordFollows : (turns : ℕ) → (block source : Bytes) → (walkFrom scanFrom : ℕ) → Bool
  | 0, _, _, _, _ => false
  | turns + 1, block, source, walkFrom, scanFrom =>
    if walk (block.length + 1) (block.drop walkFrom) then true
    else if scan block scanFrom then true
    else if block.length < kBlockSize then false
    else if source.take kBlockSize = [] then false
    else readableRecordFollows turns (source.take kBlockSize) (source.drop kBlockSize) 0 0

/-! ## The reader -/

/-- `class LogReader`, with the bytes of the file still to be read. -/
structure LogReader where
  source : Bytes
  block : Bytes
  blockOffset : ℕ
  eof : Bool
  truncated : Bool
  damaged : Bool
  failureReason : String

namespace LogReader

/-- A reader of a file. -/
def new (file : Bytes) : LogReader := ⟨file, [], 0, false, false, false, ""⟩

/-- `load_next_block` (lines 97–116): false at the end of the file. -/
def loadNextBlock (r : LogReader) : Bool × LogReader :=
  let chunk := r.source.take kBlockSize
  let r := { r with source := r.source.drop kBlockSize, block := chunk, blockOffset := 0 }
  if chunk = [] then (false, { r with eof := true }) else (true, r)

/-- `stop` (lines 157–167). -/
def stop (r : LogReader) (reason : String) (resumeOffset : ℕ) : LogReader :=
  let scanFrom := if resumeOffset < r.blockOffset + 1 then resumeOffset else r.blockOffset + 1
  { r with
    truncated := true
    eof := true
    failureReason := reason
    damaged := readableRecordFollows (r.source.length + 1) r.block r.source resumeOffset scanFrom }

/-- `read_physical_record` (lines 243–303) once the position is not in the padding of a
    full block. -/
def readHere (r : LogReader) : Option (Option RecordType × Bytes) × LogReader :=
  if r.block.length < r.blockOffset + kHeaderSize then
    if r.blockOffset < r.block.length then
      (none, r.stop "partial record header at end of log" r.block.length)
    else (none, { r with eof := true })
  else
    let p := r.block.drop r.blockOffset
    let h := parseHeader p
    if h.isZeroed then
      (none, r.stop "zeroed span where a record header should be" r.blockOffset)
    else if r.block.length < r.blockOffset + kHeaderSize + h.length then
      (none, r.stop "record length runs past the end of the log" r.block.length)
    else if actualCrc p h ≠ h.crc then
      (none, r.stop "checksum mismatch" (r.blockOffset + kHeaderSize + h.length))
    else
      (some (h.type, (p.drop kHeaderSize).take h.length),
        { r with blockOffset := r.blockOffset + kHeaderSize + h.length })

/-- `read_physical_record`. A block just loaded is read from its start, so the loop comes
    to the next block at most once. -/
def readPhysicalRecord (r : LogReader) : Option (Option RecordType × Bytes) × LogReader :=
  if r.block.length < r.blockOffset + kHeaderSize ∧ r.block.length = kBlockSize then
    match r.loadNextBlock with
    | (false, r) => (none, r)
    | (true, r) => r.readHere
  else r.readHere

/-- The fragments after the first one (lines 328–351); at most `turns` turns. -/
def readFragments : (turns : ℕ) → (scratch : Bytes) → LogReader → Option Bytes × LogReader
  | 0, _, r => (none, r)
  | turns + 1, scratch, r =>
    match r.readPhysicalRecord with
    | (none, r) =>
      (none, { r with
        truncated := true
        failureReason := if r.failureReason = "" then
          "log ends in the middle of a fragmented record" else r.failureReason })
    | (some (type, fragment), r) =>
      if type = some .middle then readFragments turns (scratch ++ fragment) r
      else if type = some .last then (some (scratch ++ fragment), r)
      else (none, r.stop "unexpected fragment type inside a record"
        (r.blockOffset - kHeaderSize - fragment.length))

/-- `read_record` once there is a block to read (lines 308–351). -/
def readLoaded (r : LogReader) : Option Bytes × LogReader :=
  match r.readPhysicalRecord with
  | (none, r) => (none, r)
  | (some (type, fragment), r) =>
    if type = some .full then (some fragment, r)
    else if type ≠ some .first then
      (none, r.stop "log begins with a continuation fragment"
        (r.blockOffset - kHeaderSize - fragment.length))
    else readFragments (r.source.length + r.block.length + 1) fragment r

/-- `read_record` (lines 305–352): a record, or false. -/
def readRecord (r : LogReader) : Option Bytes × LogReader :=
  if r.eof then (none, r)
  else if r.block = [] then
    match r.loadNextBlock with
    | (false, r) => (none, r)
    | (true, r) => r.readLoaded
  else r.readLoaded

/-- The records a caller gets until `read_record` returns false. -/
def readRecords : (turns : ℕ) → LogReader → List Bytes × LogReader
  | 0, r => ([], r)
  | turns + 1, r =>
    match r.readRecord with
    | (none, r) => ([], r)
    | (some record, r) => (record :: (readRecords turns r).1, (readRecords turns r).2)

end LogReader

/-- The records read from a file, and the reader at the stop. -/
def readLog (file : Bytes) : List Bytes × LogReader :=
  (LogReader.new file).readRecords (file.length + 1)

/-! ## Physical records and their bytes -/

theorem knownType_iff {t : Option RecordType} :
    knownType t = true ↔ ∃ type, t = some type ∧ type ≠ .zero := by
  unfold knownType
  rw [decide_eq_true_iff]
  constructor
  · rintro (rfl | rfl | rfl | rfl) <;> exact ⟨_, rfl, by simp⟩
  · rintro ⟨type, rfl, hne⟩
    cases type <;> simp_all

/-- A record with any checksum and type byte. -/
def framed (crc : ℕ) (typeByte : UInt8) (data : Bytes) : Bytes :=
  putFixed 4 crc ++
    [UInt8.ofNat (data.length % 256), UInt8.ofNat (data.length / 256 % 256), typeByte] ++ data

section

variable {crc : ℕ} {typeByte : UInt8} {data : Bytes} (rest : Bytes)

theorem parseHeader_framed (hcrc : crc < 2 ^ 32) (hlen : data.length < 65536) :
    parseHeader (framed crc typeByte data ++ rest) = ⟨crc, data.length, typeByte⟩ := by
  have htake : (framed crc typeByte data ++ rest).take 4 = putFixed 4 crc := by
    simp only [framed, List.append_assoc]
    exact List.take_left' (length_putFixed _ _)
  have hget : ∀ i x, 4 ≤ i → ([UInt8.ofNat (data.length % 256),
      UInt8.ofNat (data.length / 256 % 256), typeByte] ++ (data ++ rest)).getD (i - 4) 0 = x →
      (framed crc typeByte data ++ rest).getD i 0 = x := by
    intro i x hi hx
    simp only [framed, List.append_assoc]
    rw [List.getD_append_right _ _ _ _ (by rw [length_putFixed]; exact hi), length_putFixed]
    exact hx
  have h1 : (UInt8.ofNat (data.length % 256)).toNat = data.length % 256 := by
    rw [UInt8.toNat_ofNat']
    omega
  have h2 : (UInt8.ofNat (data.length / 256 % 256)).toNat = data.length / 256 := by
    rw [UInt8.toNat_ofNat']
    omega
  rw [parseHeader, htake, hget 4 _ (by omega) rfl, hget 5 _ (by omega) rfl, hget 6 _ (by omega) rfl]
  simp only [List.cons_append, List.getD_cons_zero, List.getD_cons_succ, Nat.reduceSub]
  rw [decodeFixed_put hcrc, h1, h2, or_shiftLeft_of_lt (by omega)]
  congr 1
  omega

theorem data_framed : ((framed crc typeByte data ++ rest).drop kHeaderSize).take data.length = data := by
  have hdrop : (framed crc typeByte data ++ rest).drop kHeaderSize = data ++ rest := by
    simp only [framed]
    rw [List.append_assoc]
    exact List.drop_left' (by simp [kHeaderSize])
  rw [hdrop]
  exact List.take_left' rfl

theorem actualCrc_framed (hcrc : crc < 2 ^ 32) (hlen : data.length < 65536) :
    actualCrc (framed crc typeByte data ++ rest) (parseHeader (framed crc typeByte data ++ rest)) =
      recordCrc typeByte data := by
  have htype := congrArg Header.typeByte (@parseHeader_framed crc typeByte data rest hcrc hlen)
  unfold actualCrc
  rw [parseHeader_framed rest hcrc hlen, data_framed]
  exact congrArg (recordCrc · data) htype

end

section

variable {type : RecordType} {data : Bytes} (rest : Bytes)

theorem parseHeader_physicalRecord (hlen : data.length < 65536) :
    parseHeader (physicalRecord type data ++ rest) =
      ⟨recordCrc type.toByte data, data.length, type.toByte⟩ :=
  parseHeader_framed rest (recordCrc_lt _ _) hlen

theorem drop_physicalRecord :
    (physicalRecord type data ++ rest).drop (kHeaderSize + data.length) = rest :=
  List.drop_left' (length_physicalRecord _ _)

theorem data_physicalRecord :
    ((physicalRecord type data ++ rest).drop kHeaderSize).take data.length = data :=
  data_framed rest

theorem actualCrc_physicalRecord (hlen : data.length < 65536) :
    actualCrc (physicalRecord type data ++ rest) (parseHeader (physicalRecord type data ++ rest)) =
      recordCrc type.toByte data :=
  actualCrc_framed rest (recordCrc_lt _ _) hlen

theorem not_isZeroed_physicalRecord (hlen : data.length < 65536) (htype : type ≠ .zero) :
    (parseHeader (physicalRecord type data ++ rest)).isZeroed = false := by
  rw [parseHeader_physicalRecord rest hlen]
  simp [Header.isZeroed, Header.type, htype]

theorem knownType_physicalRecord (hlen : data.length < 65536) (htype : type ≠ .zero) :
    knownType (parseHeader (physicalRecord type data ++ rest)).type = true := by
  rw [parseHeader_physicalRecord rest hlen]
  exact knownType_iff.mpr ⟨type, RecordType.ofByte_toByte type, htype⟩

theorem verifies_physicalRecord (hlen : data.length < 65536) (htype : type ≠ .zero) :
    verifies (physicalRecord type data ++ rest)
      (parseHeader (physicalRecord type data ++ rest)) = true := by
  rw [verifies, knownType_physicalRecord rest hlen htype, actualCrc_physicalRecord rest hlen, parseHeader_physicalRecord rest hlen]
  simp

end

/-- Bytes that verify are a physical record, with the bytes after it. -/
theorem exists_physicalRecord_of_verifies {rest : Bytes}
    (hfit : kHeaderSize + (parseHeader rest).length ≤ rest.length)
    (hv : verifies rest (parseHeader rest) = true) :
    ∃ type data, type ≠ .zero ∧ data.length < 65536 ∧ data.length = (parseHeader rest).length ∧
      rest = physicalRecord type data ++ rest.drop (kHeaderSize + data.length) := by
  obtain ⟨hcrc, hknown⟩ := Bool.and_eq_true_iff.mp hv
  obtain ⟨type, htype, hne⟩ := knownType_iff.mp hknown
  have hbyte := RecordType.toByte_of_ofByte htype
  -- the seven bytes of the header
  rcases rest with _ | ⟨b0, _ | ⟨b1, _ | ⟨b2, _ | ⟨b3, _ | ⟨b4, _ | ⟨b5, _ | ⟨b6, tail⟩⟩⟩⟩⟩⟩⟩
  iterate 7
    · exact absurd hfit (by simp only [List.length_cons, List.length_nil, kHeaderSize]; omega)
  · have hlen : (parseHeader (b0 :: b1 :: b2 :: b3 :: b4 :: b5 :: b6 :: tail)).length =
        b4.toNat + 256 * b5.toNat := by
      show b4.toNat ||| b5.toNat <<< 8 = _
      rw [or_shiftLeft_of_lt b4.toNat_lt]
      omega
    have h4 := b4.toNat_lt
    have h5 := b5.toNat_lt
    rw [hlen] at hfit
    simp only [List.length_cons, kHeaderSize] at hfit
    have hdata : (tail.take (b4.toNat + 256 * b5.toNat)).length = b4.toNat + 256 * b5.toNat := by
      rw [List.length_take]
      omega
    have hlt : (tail.take (b4.toNat + 256 * b5.toNat)).length < 65536 := by
      rw [hdata]
      omega
    refine ⟨type, tail.take (b4.toNat + 256 * b5.toNat), hne, hlt, hdata.trans hlen.symm, ?_⟩
    have hcrc' : recordCrc type.toByte (tail.take (b4.toNat + 256 * b5.toNat)) =
        decodeFixed [b0, b1, b2, b3] := by
      have := of_decide_eq_true hcrc
      rw [actualCrc, hlen] at this
      rw [hbyte]
      exact this
    have hput := putFixed_decodeFixed [b0, b1, b2, b3]
    have e4 : UInt8.ofNat ((b4.toNat + 256 * b5.toNat) % 256) = b4 := by
      rw [show (b4.toNat + 256 * b5.toNat) % 256 = b4.toNat by omega, UInt8.ofNat_toNat]
    have e5 : UInt8.ofNat ((b4.toNat + 256 * b5.toNat) / 256 % 256) = b5 := by
      rw [show (b4.toNat + 256 * b5.toNat) / 256 % 256 = b5.toNat by omega, UInt8.ofNat_toNat]
    have e6 : type.toByte = b6 := hbyte
    rw [physicalRecord, hcrc', hdata, e4, e5, e6, show putFixed 4 _ = [b0, b1, b2, b3] from hput,
      kHeaderSize, Nat.add_comm 7]
    simp

/-! ## Chains of records -/

/-- Physical records one after the other, at least one, then zeros. -/
def IntactChain (bytes : Bytes) : Prop :=
  ∃ fs : List (RecordType × Bytes), fs ≠ [] ∧ (∀ f ∈ fs, f.1 ≠ .zero ∧ f.2.length < 65536) ∧
    ∃ k, bytes = fs.flatMap (fun f => physicalRecord f.1 f.2) ++ List.replicate k 0

theorem all_zero_iff {bytes : Bytes} :
    bytes.all (· == 0) = true ↔ ∃ k, bytes = List.replicate k 0 := by
  rw [List.all_eq_true]
  constructor
  · intro h
    exact ⟨bytes.length, List.eq_replicate_iff.mpr ⟨rfl, fun b hb => by simpa using h b hb⟩⟩
  · rintro ⟨k, rfl⟩ b hb
    simpa using List.eq_of_mem_replicate hb

/-- A header of zeros. -/
theorem isZeroed_replicate {k : ℕ} (hk : kHeaderSize ≤ k) :
    (parseHeader (List.replicate k 0)).isZeroed = true := by
  obtain ⟨n, rfl⟩ := Nat.exists_eq_add_of_le hk
  have hheader : parseHeader (List.replicate kHeaderSize 0 ++ List.replicate n 0) = ⟨0, 0, 0⟩ := by
    simp [parseHeader, kHeaderSize, List.replicate_succ, decodeFixed]
  rw [List.replicate_add, hheader]
  decide

/-- The loop of the search accepts records one after the other, then zeros. -/
theorem verifiesFrom_iff : ∀ {turns : ℕ} {any : Bool} {rest : Bytes}, rest.length < turns →
    (verifiesFrom turns any rest = true ↔ ∃ fs : List (RecordType × Bytes),
      (any = true ∨ fs ≠ []) ∧ (∀ f ∈ fs, f.1 ≠ .zero ∧ f.2.length < 65536) ∧
      ∃ k, rest = fs.flatMap (fun f => physicalRecord f.1 f.2) ++ List.replicate k 0) := by
  intro turns
  induction turns with
  | zero => exact fun h => absurd h (Nat.not_lt_zero _)
  | succ turns ih =>
    intro any rest hlt
    -- zeros are accepted where a record was found before
    have hzeros : (rest.all (· == 0) && any) = true →
        ∃ fs : List (RecordType × Bytes), (any = true ∨ fs ≠ []) ∧
          (∀ f ∈ fs, f.1 ≠ .zero ∧ f.2.length < 65536) ∧
          ∃ k, rest = fs.flatMap (fun f => physicalRecord f.1 f.2) ++ List.replicate k 0 := by
      intro h
      obtain ⟨hz, hany⟩ := Bool.and_eq_true_iff.mp h
      obtain ⟨k, hk⟩ := all_zero_iff.mp hz
      exact ⟨[], Or.inl hany, by simp, k, by simpa using hk⟩
    have hnil : ∀ {k : ℕ}, any = true ∨ ([] : List (RecordType × Bytes)) ≠ [] →
        rest = List.replicate k 0 → (rest.all (· == 0) && any) = true := by
      intro k hany hk
      rw [all_zero_iff.mpr ⟨k, hk⟩, hany.resolve_right (fun h => h rfl)]
      rfl
    rw [verifiesFrom]
    by_cases hlen : kHeaderSize ≤ rest.length
    · rw [if_pos hlen]
      simp only
      constructor
      · intro h
        split_ifs at h with hz hlong hv
        · exact hzeros h
        · obtain ⟨type, data, hne, hd, hdlen, hrest⟩ :=
            exists_physicalRecord_of_verifies (by omega) hv
          obtain ⟨fs, -, hfs, k, hk⟩ := (ih (by
            rw [List.length_drop]
            unfold kHeaderSize at *
            omega)).mp h
          refine ⟨(type, data) :: fs, Or.inr (by simp), fun f hf => ?_, k, ?_⟩
          · rcases List.mem_cons.mp hf with rfl | hf
            · exact ⟨hne, hd⟩
            · exact hfs f hf
          · rw [List.flatMap_cons, List.append_assoc, ← hk, ← hdlen]
            exact hrest
      · rintro ⟨fs, hany, hfs, k, hk⟩
        cases fs with
        | nil =>
          have hk' : rest = List.replicate k 0 := by simpa using hk
          rw [if_pos (hk' ▸ isZeroed_replicate (by simpa [hk'] using hlen))]
          exact hnil hany hk'
        | cons f fs =>
          obtain ⟨hne, hd⟩ := hfs f List.mem_cons_self
          have hk' : rest = physicalRecord f.1 f.2 ++
              (fs.flatMap (fun f => physicalRecord f.1 f.2) ++ List.replicate k 0) := by
            rw [hk, List.flatMap_cons, List.append_assoc]
          have hheader := @parseHeader_physicalRecord f.1 f.2 (fs.flatMap (fun f =>
            physicalRecord f.1 f.2) ++ List.replicate k 0) hd
          have hshort : ¬ rest.length < kHeaderSize + (parseHeader rest).length := by
            rw [hk', hheader, List.length_append, length_physicalRecord]
            simp only
            omega
          rw [hk'] at hshort ⊢
          rw [if_neg (by rw [not_isZeroed_physicalRecord _ hd hne]; simp), if_neg hshort,
            if_pos (verifies_physicalRecord _ hd hne), hheader]
          simp only
          rw [drop_physicalRecord]
          refine (ih ?_).mpr ⟨fs, Or.inl rfl, fun g hg => hfs g (List.mem_cons_of_mem _ hg), k, rfl⟩
          rw [hk', List.length_append, length_physicalRecord] at hlt
          unfold kHeaderSize at hlt
          omega
    · rw [if_neg hlen]
      refine ⟨hzeros, ?_⟩
      rintro ⟨fs, hany, hfs, k, hk⟩
      cases fs with
      | nil => exact hnil hany (by simpa using hk)
      | cons f fs =>
        rw [hk, List.flatMap_cons, List.append_assoc, List.length_append,
          length_physicalRecord] at hlen
        omega

/-- **The search by bytes accepts exactly the intact chains.** -/
theorem verifiesToBlockEnd_iff {block : Bytes} {start : ℕ} :
    verifiesToBlockEnd block start = true ↔ IntactChain (block.drop start) := by
  unfold verifiesToBlockEnd
  rw [verifiesFrom_iff (by rw [List.length_drop]; omega)]
  constructor
  · rintro ⟨fs, hne, h⟩
    exact ⟨fs, hne.resolve_left (by simp), h⟩
  · rintro ⟨fs, hne, h⟩
    exact ⟨fs, Or.inr hne, h⟩

/-- A chain starts with a record of a known type that is whole. -/
theorem IntactChain.header {bytes : Bytes} (h : IntactChain bytes) :
    kHeaderSize ≤ bytes.length ∧ knownType (parseHeader bytes).type = true ∧
      kHeaderSize + (parseHeader bytes).length ≤ bytes.length := by
  obtain ⟨fs, hne, hfs, k, rfl⟩ := h
  cases fs with
  | nil => exact absurd rfl hne
  | cons f fs =>
    obtain ⟨hz, hd⟩ := hfs f List.mem_cons_self
    rw [List.flatMap_cons, List.append_assoc]
    have hheader := @parseHeader_physicalRecord f.1 f.2 (fs.flatMap (fun f =>
      physicalRecord f.1 f.2) ++ List.replicate k 0) hd
    refine ⟨?_, knownType_physicalRecord _ hd hz, ?_⟩
    · rw [List.length_append, length_physicalRecord]
      omega
    · rw [hheader, List.length_append, length_physicalRecord]
      simp only
      omega

theorem scan_iff {block : Bytes} {scanFrom : ℕ} :
    scan block scanFrom = true ↔ ∃ at_, scanFrom ≤ at_ ∧ IntactChain (block.drop at_) := by
  unfold scan
  rw [List.any_eq_true]
  constructor
  · rintro ⟨at_, hat, h⟩
    simp only [Bool.and_eq_true] at h
    exact ⟨at_, (List.mem_range'_1.mp hat).1, verifiesToBlockEnd_iff.mp h.2⟩
  · rintro ⟨at_, hle, hchain⟩
    obtain ⟨h1, h2, h3⟩ := hchain.header
    refine ⟨at_, List.mem_range'_1.mpr ⟨hle, ?_⟩, ?_⟩
    · rw [List.length_drop] at h1
      unfold kHeaderSize at h1
      omega
    · simp only [Bool.and_eq_true, decide_eq_true_eq]
      exact ⟨⟨⟨h1, h2⟩, h3⟩, verifiesToBlockEnd_iff.mpr hchain⟩

end Ambar
