import Ambar.Format.Checksum

/-!
# Writing a log

`LogWriter` (`src/wal.cpp`, lines 15–90) cuts each payload into physical records that
do not cross a block of 32 KiB. A header that would not fit a block's end is put at
the start of the next block, after zeros.

* `render`: the bytes of physical records laid out from a position of the file.
* `Laid`: the records stand where the rule puts them, and fit their blocks.
* `Fragmented`: physical records that make up one payload.
* `addRecord_spec`: one payload; `addRecords_spec`: a whole log.
-/

namespace Ambar

/-- `kBlockSize` (`src/wal.hpp`, line 38). -/
def kBlockSize : ℕ := 32768

/-- `kHeaderSize` (line 39). -/
def kHeaderSize : ℕ := 7

/-- `enum class RecordType` (lines 41–47). -/
inductive RecordType where
  | zero
  | full
  | first
  | middle
  | last
deriving DecidableEq, Repr

namespace RecordType

/-- The byte of a type. -/
def toByte : RecordType → UInt8
  | zero => 0
  | full => 1
  | first => 2
  | middle => 3
  | last => 4

/-- The type a byte stands for; other bytes are none of the enumerators. -/
def ofByte (b : UInt8) : Option RecordType :=
  if b = 0 then some zero else if b = 1 then some full else if b = 2 then some first
  else if b = 3 then some middle else if b = 4 then some last else none

@[simp] theorem ofByte_toByte (t : RecordType) : ofByte t.toByte = some t := by
  cases t <;> rfl

theorem toByte_of_ofByte {b : UInt8} {t : RecordType} (h : ofByte b = some t) : t.toByte = b := by
  unfold ofByte at h
  split_ifs at h with h0 h1 h2 h3 h4 <;> cases h
  · exact h0.symm
  · exact h1.symm
  · exact h2.symm
  · exact h3.symm
  · exact h4.symm

end RecordType

/-- The checksum of a physical record: over the type byte and the payload. -/
def recordCrc (typeByte : UInt8) (data : Bytes) : ℕ :=
  crc32cExtend (crc32cExtend 0 [typeByte]) data

theorem recordCrc_lt (typeByte : UInt8) (data : Bytes) : recordCrc typeByte data < 2 ^ 32 :=
  crc32cExtend_lt (crc32cExtend_lt (by decide) _) _

/-- What `emit_physical_record` appends (lines 70–82). -/
def physicalRecord (type : RecordType) (data : Bytes) : Bytes :=
  putFixed 4 (recordCrc type.toByte data) ++
    [UInt8.ofNat (data.length % 256), UInt8.ofNat (data.length / 256 % 256), type.toByte] ++ data

@[simp] theorem length_physicalRecord (type : RecordType) (data : Bytes) :
    (physicalRecord type data).length = kHeaderSize + data.length := by
  simp only [physicalRecord, kHeaderSize, List.length_append, length_putFixed, List.length_cons,
    List.length_nil]

/-- A physical record in a file. -/
structure Placed where
  start : ℕ
  type : RecordType
  data : Bytes
deriving DecidableEq, Repr

namespace Placed

/-- Its bytes. -/
def bytes (p : Placed) : Bytes := physicalRecord p.type p.data

/-- The position after it. -/
def finish (p : Placed) : ℕ := p.start + kHeaderSize + p.data.length

@[simp] theorem length_bytes (p : Placed) : p.bytes.length = kHeaderSize + p.data.length :=
  length_physicalRecord _ _

end Placed

/-! ## The writer -/

/-- `class LogWriter`, with the bytes appended to its file. `emitted` remembers the
    physical records and where they are. -/
structure LogWriter where
  dest : Bytes
  offset : ℕ
  emitted : List Placed

namespace LogWriter

/-- A writer of an empty file. -/
def new : LogWriter := ⟨[], 0, []⟩

/-- `emit_physical_record` (lines 64–90). -/
def emitPhysicalRecord (w : LogWriter) (type : RecordType) (data : Bytes) : LogWriter where
  dest := w.dest ++ physicalRecord type data
  offset := w.offset + kHeaderSize + data.length
  emitted := w.emitted ++ [⟨w.dest.length, type, data⟩]

/-- Fewer than seven bytes of a block are padded (lines 24–36). -/
def startHeader (w : LogWriter) : LogWriter :=
  if kBlockSize - w.offset < kHeaderSize then
    { w with
      dest := w.dest ++ List.replicate (kBlockSize - w.offset) 0
      offset := 0 }
  else w

/-- The type of a fragment (lines 42–51). -/
def fragmentType : (firstFragment lastFragment : Bool) → RecordType
  | true, true => .full
  | true, false => .first
  | false, true => .last
  | false, false => .middle

/-- The loop of `add_record` (lines 23–59); at most `turns` turns. -/
def addRecordLoop : (turns : ℕ) → (firstFragment : Bool) → Bytes → LogWriter → LogWriter
  | 0, _, _, w => w
  | turns + 1, firstFragment, data, w =>
    let w := w.startHeader
    let available := kBlockSize - w.offset - kHeaderSize
    let fragment := if data.length < available then data.length else available
    let w := w.emitPhysicalRecord (fragmentType firstFragment (decide (fragment = data.length)))
      (data.take fragment)
    if data.length - fragment > 0 then addRecordLoop turns false (data.drop fragment) w else w

/-- `add_record` (lines 15–62). A turn takes a byte at least, but for a first one that
    finds room for a header only. -/
def addRecord (w : LogWriter) (payload : Bytes) : LogWriter :=
  addRecordLoop (payload.length + 1) true payload w

/-- The records of a log one after the other. -/
def addRecords (w : LogWriter) (payloads : List Bytes) : LogWriter := payloads.foldl addRecord w

/-- The position after the last physical record emitted. -/
def emittedEnd (w : LogWriter) : ℕ := (w.emitted.getLast?.map Placed.finish).getD 0

/-- For each payload the end of its last physical record. -/
def recordEnds : LogWriter → List Bytes → List ℕ
  | _, [] => []
  | w, payload :: payloads =>
    (w.addRecord payload).emittedEnd :: recordEnds (w.addRecord payload) payloads

end LogWriter

/-- The log of payloads written to an empty file. -/
def writeLog (payloads : List Bytes) : LogWriter := LogWriter.new.addRecords payloads

/-! ## Layout -/

/-- The zeros before a header at the position `pos` of a file. -/
def padding (pos : ℕ) : ℕ :=
  if kBlockSize - pos % kBlockSize < kHeaderSize then kBlockSize - pos % kBlockSize else 0

/-- The bytes of records laid out from the position `pos` on. -/
def render : (pos : ℕ) → List Placed → Bytes
  | _, [] => []
  | pos, p :: ps => List.replicate (padding pos) 0 ++ p.bytes ++ render p.finish ps

/-- The records stand one after the other from `pos` on, each within a block. -/
def Laid : (pos : ℕ) → List Placed → Prop
  | _, [] => True
  | pos, p :: ps =>
    p.start = pos + padding pos ∧ p.start % kBlockSize + kHeaderSize + p.data.length ≤ kBlockSize ∧
      p.type ≠ .zero ∧ Laid p.finish ps

/-- The position after records laid out from `pos` on. -/
def endOf (pos : ℕ) (ps : List Placed) : ℕ := (ps.getLast?.map Placed.finish).getD pos

@[simp] theorem endOf_nil (pos : ℕ) : endOf pos [] = pos := rfl

@[simp] theorem endOf_cons (pos : ℕ) (p : Placed) (ps : List Placed) :
    endOf pos (p :: ps) = endOf p.finish ps := by
  unfold endOf
  cases ps with
  | nil => rfl
  | cons q ps => simp [List.getLast?_cons]

theorem endOf_append (pos : ℕ) (ps qs : List Placed) :
    endOf pos (ps ++ qs) = endOf (endOf pos ps) qs := by
  induction ps generalizing pos with
  | nil => rfl
  | cons p ps ih => simp [ih]

theorem length_render {ps : List Placed} :
    ∀ {pos : ℕ}, Laid pos ps → pos + (render pos ps).length = endOf pos ps := by
  induction ps with
  | nil => intro pos _; simp [render]
  | cons p ps ih =>
    intro pos h
    obtain ⟨hstart, -, -, hps⟩ := h
    have := ih hps
    simp only [render, List.length_append, List.length_replicate, Placed.length_bytes, endOf_cons,
      Placed.finish] at this ⊢
    omega

theorem render_append (qs : List Placed) :
    ∀ (pos : ℕ) (ps : List Placed), render pos (ps ++ qs) = render pos ps ++ render (endOf pos ps) qs
  | _, [] => rfl
  | pos, p :: ps => by
    simp only [List.cons_append, render, render_append qs p.finish ps, endOf_cons,
      List.append_assoc]

theorem laid_append {qs : List Placed} :
    ∀ {pos : ℕ} {ps : List Placed}, Laid pos (ps ++ qs) ↔ Laid pos ps ∧ Laid (endOf pos ps) qs
  | _, [] => by simp [Laid]
  | pos, p :: ps => by
    simp only [List.cons_append, Laid, @laid_append _ _ ps, endOf_cons, and_assoc]

theorem le_endOf {ps : List Placed} {pos : ℕ} (h : Laid pos ps) : pos ≤ endOf pos ps := by
  have := length_render h
  omega

/-- Records laid out from `pos` on start there or later. -/
theorem le_start {ps : List Placed} :
    ∀ {pos : ℕ}, Laid pos ps → ∀ p ∈ ps, pos ≤ p.start := by
  induction ps with
  | nil => exact fun _ p hp => absurd hp List.not_mem_nil
  | cons q ps ih =>
    intro pos hlaid p hp
    obtain ⟨hstart, -, -, hps⟩ := hlaid
    rcases List.mem_cons.mp hp with rfl | hp
    · omega
    · have := ih hps p hp
      unfold Placed.finish at this
      omega

/-- And end where the last one does or before. -/
theorem finish_le {ps : List Placed} :
    ∀ {pos : ℕ}, Laid pos ps → ∀ p ∈ ps, p.finish ≤ endOf pos ps := by
  induction ps with
  | nil => exact fun _ p hp => absurd hp List.not_mem_nil
  | cons q ps ih =>
    intro pos hlaid p hp
    obtain ⟨-, -, -, hps⟩ := hlaid
    rw [endOf_cons]
    rcases List.mem_cons.mp hp with rfl | hp
    · exact le_endOf hps
    · exact ih hps p hp

/-! ## One payload -/

/-- The physical records carry the payload: one full record, or a first one, middle ones
    and a last one. -/
inductive Fragmented : Bytes → List Placed → Prop where
  | full (start : ℕ) (payload : Bytes) : Fragmented payload [⟨start, .full, payload⟩]
  | split (p : Placed) (middles : List Placed) (q : Placed) (hp : p.type = .first)
      (hm : ∀ m ∈ middles, m.type = .middle) (hq : q.type = .last) :
      Fragmented (p.data ++ middles.flatMap Placed.data ++ q.data) (p :: (middles ++ [q]))

/-- The records after the first one of a payload. -/
def Continued (data : Bytes) (ps : List Placed) : Prop :=
  ∃ middles q, ps = middles ++ [q] ∧ (∀ m ∈ middles, m.type = .middle) ∧ q.type = .last ∧
    data = middles.flatMap Placed.data ++ q.data

theorem Fragmented.ne_nil {payload : Bytes} {ps : List Placed} (h : Fragmented payload ps) :
    ps ≠ [] := by
  cases h <;> simp

namespace LogWriter

/-- The writer's position in its block is that of its file. -/
structure Ok (w : LogWriter) : Prop where
  offset_le : w.offset ≤ kBlockSize
  mod : w.dest.length % kBlockSize = w.offset % kBlockSize

theorem ok_new : new.Ok := ⟨by decide, rfl⟩

/-- What a step of the writer appends: the records `ps`, laid out. -/
structure Adds (w w' : LogWriter) (ps : List Placed) : Prop where
  dest : w'.dest = w.dest ++ render w.dest.length ps
  emitted : w'.emitted = w.emitted ++ ps
  laid : Laid w.dest.length ps
  ok : w'.Ok

namespace Adds

variable {w w' w'' : LogWriter} {ps qs : List Placed}

theorem refl (h : w.Ok) : w.Adds w [] := ⟨by simp [render], by simp, trivial, h⟩

theorem length (h : w.Adds w' ps) : w'.dest.length = endOf w.dest.length ps := by
  rw [h.dest, List.length_append, length_render h.laid]

theorem trans (h : w.Adds w' ps) (h' : w'.Adds w'' qs) : w.Adds w'' (ps ++ qs) where
  dest := by rw [h'.dest, h.length, h.dest, List.append_assoc, render_append]
  emitted := by rw [h'.emitted, h.emitted, List.append_assoc]
  laid := laid_append.mpr ⟨h.laid, h.length ▸ h'.laid⟩
  ok := h'.ok

end Adds

variable {w : LogWriter}

theorem startHeader_spec (h : w.Ok) :
    w.startHeader.dest = w.dest ++ List.replicate (padding w.dest.length) 0 ∧
    w.startHeader.emitted = w.emitted ∧
    w.startHeader.dest.length = w.dest.length + padding w.dest.length ∧
    w.startHeader.dest.length % kBlockSize = w.startHeader.offset ∧
    w.startHeader.offset + kHeaderSize ≤ kBlockSize := by
  have hle := h.offset_le
  have hmod := h.mod
  unfold startHeader padding
  rw [hmod]
  unfold kBlockSize kHeaderSize at *
  by_cases hfull : w.offset = 32768
  · -- a block just filled needs no zeros
    rw [if_pos (by omega), if_neg (by omega), hfull]
    refine ⟨by simp, rfl, by simp, ?_, Nat.le_of_ble_eq_true rfl⟩
    simp only [Nat.sub_self, List.replicate_zero, List.append_nil]
    omega
  · have hoff : w.offset % 32768 = w.offset := Nat.mod_eq_of_lt (by omega)
    rw [hoff] at hmod ⊢
    split_ifs with hlt
    · refine ⟨rfl, rfl, by simp, ?_, Nat.le_of_ble_eq_true rfl⟩
      simp only [List.length_append, List.length_replicate]
      omega
    · exact ⟨by simp, rfl, by simp, hmod, by omega⟩

/-- One turn of the loop: the next fragment, in its place. -/
theorem emit_spec (h : w.Ok) (type : RecordType) (data : Bytes) (htype : type ≠ .zero)
    (hfit : w.startHeader.offset + kHeaderSize + data.length ≤ kBlockSize) :
    w.Adds (w.startHeader.emitPhysicalRecord type data)
      [⟨w.dest.length + padding w.dest.length, type, data⟩] := by
  obtain ⟨hdest, hemitted, hlen, hmod, -⟩ := startHeader_spec h
  refine ⟨?_, ?_, ⟨rfl, ?_, htype, trivial⟩, ⟨hfit, ?_⟩⟩
  · simp only [emitPhysicalRecord, hdest, render, Placed.bytes, List.append_nil, List.append_assoc]
  · simp only [emitPhysicalRecord, hemitted, hlen]
  · simp only [← hlen, hmod]
    exact hfit
  · simp only [emitPhysicalRecord, List.length_append, length_physicalRecord]
    unfold kBlockSize kHeaderSize at *
    omega

/-- The turns after the first: each starts a block. -/
theorem addRecordLoop_continued :
    ∀ {turns : ℕ} {data : Bytes} {w : LogWriter}, w.Ok → w.offset = kBlockSize → data ≠ [] →
      data.length ≤ turns →
      ∃ ps, w.Adds (addRecordLoop turns false data w) ps ∧ Continued data ps := by
  intro turns
  induction turns with
  | zero =>
    intro data w _ _ hne hle
    exact absurd (List.length_eq_zero_iff.mp (by omega)) hne
  | succ turns ih =>
    intro data w hok hfull hne hle
    have hoff : w.startHeader.offset = 0 := by
      rw [startHeader, if_pos (by rw [hfull]; decide)]
    have hpos : 0 < data.length := List.length_pos_iff.mpr hne
    rw [addRecordLoop, hoff]
    simp only [Nat.sub_zero]
    by_cases hlast : data.length ≤ kBlockSize - kHeaderSize
    · -- the rest fits
      have hfragment : (if data.length < kBlockSize - kHeaderSize then data.length
          else kBlockSize - kHeaderSize) = data.length := by
        split_ifs <;> omega
      rw [hfragment, if_neg (by omega), List.take_length, decide_eq_true rfl]
      refine ⟨_, emit_spec hok .last data (by simp) ?_, [], _, rfl, by simp, rfl, by simp⟩
      rw [hoff]
      unfold kBlockSize kHeaderSize at *
      omega
    · have hfragment : (if data.length < kBlockSize - kHeaderSize then data.length
          else kBlockSize - kHeaderSize) = kBlockSize - kHeaderSize := if_neg (by omega)
      rw [hfragment, if_pos (by omega), decide_eq_false (by omega)]
      have hlen : (data.take (kBlockSize - kHeaderSize)).length = kBlockSize - kHeaderSize := by
        rw [List.length_take]
        omega
      have hemit := emit_spec hok .middle (data.take (kBlockSize - kHeaderSize)) (by simp) (by
        rw [hoff, hlen]
        decide)
      obtain ⟨ps, hadds, middles, q, rfl, hm, hq, hdata⟩ := ih hemit.ok (by
        show w.startHeader.offset + kHeaderSize + _ = kBlockSize
        rw [hoff, hlen]
        decide) (show data.drop (kBlockSize - kHeaderSize) ≠ [] by
          rw [Ne, ← List.length_eq_zero_iff, List.length_drop]
          omega) (by
          rw [List.length_drop]
          unfold kBlockSize kHeaderSize at *
          omega)
      refine ⟨_, hemit.trans hadds, _ :: middles, q, rfl, ?_, hq, ?_⟩
      · exact fun m hmem => (List.mem_cons.mp hmem).elim (fun h => h ▸ rfl) (hm m)
      · rw [List.flatMap_cons, List.append_assoc, ← hdata]
        exact (List.take_append_drop _ _).symm

/-- **One payload**: `add_record` appends physical records that carry it. -/
theorem addRecord_spec (hok : w.Ok) (payload : Bytes) :
    ∃ ps, w.Adds (w.addRecord payload) ps ∧ Fragmented payload ps := by
  have hroom := (startHeader_spec hok).2.2.2.2
  rw [addRecord, addRecordLoop]
  generalize havail : kBlockSize - w.startHeader.offset - kHeaderSize = available
  by_cases hlast : payload.length ≤ available
  · have hfragment : (if payload.length < available then payload.length else available) =
        payload.length := by
      split_ifs <;> omega
    rw [hfragment, if_neg (by omega), List.take_length, decide_eq_true rfl]
    exact ⟨_, emit_spec hok .full payload (by simp) (by omega), .full _ _⟩
  · have hfragment : (if payload.length < available then payload.length else available) =
        available := if_neg (by omega)
    rw [hfragment, if_pos (by omega), decide_eq_false (by omega)]
    have hlen : (payload.take available).length = available := by
      rw [List.length_take]
      omega
    have hemit := emit_spec hok .first (payload.take available) (by simp) (by omega)
    obtain ⟨ps, hadds, middles, q, rfl, hm, hq, hdata⟩ := @addRecordLoop_continued
      payload.length (payload.drop available) _ hemit.ok (by
        show w.startHeader.offset + kHeaderSize + _ = kBlockSize
        rw [hlen]
        omega) (by
        rw [Ne, ← List.length_eq_zero_iff, List.length_drop]
        omega) (by
        rw [List.length_drop]
        omega)
    refine ⟨_, hemit.trans hadds, ?_⟩
    have hsplit := Fragmented.split
      ⟨w.dest.length + padding w.dest.length, .first, payload.take available⟩ middles q rfl hm hq
    rw [List.append_assoc, ← hdata, List.take_append_drop] at hsplit
    exact hsplit

/-- The ends of groups of records laid out from `pos` on. -/
def groupEnds : (pos : ℕ) → List (List Placed) → List ℕ
  | _, [] => []
  | pos, g :: gs => endOf pos g :: groupEnds (endOf pos g) gs

/-- **A whole log**: the physical records of the payloads, one group for each, in order. -/
theorem addRecords_spec {payloads : List Bytes} :
    ∀ {w : LogWriter}, w.Ok → w.emittedEnd = w.dest.length → ∃ groups : List (List Placed),
      List.Forall₂ Fragmented payloads groups ∧ w.Adds (w.addRecords payloads) groups.flatten ∧
      w.recordEnds payloads = groupEnds w.dest.length groups := by
  induction payloads with
  | nil => exact fun hok _ => ⟨[], .nil, .refl hok, rfl⟩
  | cons payload payloads ih =>
    intro w hok hend
    obtain ⟨ps, hadds, hfrag⟩ := addRecord_spec hok payload
    have hend' : (w.addRecord payload).emittedEnd = (w.addRecord payload).dest.length := by
      rw [hadds.length]
      unfold emittedEnd endOf
      rw [hadds.emitted, List.getLast?_append_of_ne_nil _ hfrag.ne_nil]
      rw [List.getLast?_eq_some_getLast hfrag.ne_nil]
      rfl
    obtain ⟨groups, hall, hrest, hends⟩ := ih hadds.ok hend'
    refine ⟨ps :: groups, .cons hfrag hall, hadds.trans hrest, ?_⟩
    rw [recordEnds, groupEnds, hends, hend', hadds.length]

end LogWriter

/-- The physical records of a log, laid out from its start on. -/
theorem writeLog_spec (payloads : List Bytes) : ∃ groups : List (List Placed),
    List.Forall₂ Fragmented payloads groups ∧ (writeLog payloads).emitted = groups.flatten ∧
    Laid 0 groups.flatten ∧ (writeLog payloads).dest = render 0 groups.flatten ∧
    LogWriter.new.recordEnds payloads = LogWriter.groupEnds 0 groups := by
  obtain ⟨groups, hall, hadds, hends⟩ := @LogWriter.addRecords_spec payloads _ LogWriter.ok_new rfl
  exact ⟨groups, hall, hadds.emitted, hadds.laid, hadds.dest, hends⟩

/-- A record stands in the file at its place. -/
theorem bytes_prefix_render {ps : List Placed} :
    ∀ {pos : ℕ}, Laid pos ps → ∀ p ∈ ps, p.bytes <+: (render pos ps).drop (p.start - pos) := by
  induction ps with
  | nil => exact fun _ p hp => absurd hp List.not_mem_nil
  | cons q ps ih =>
    intro pos hlaid p hp
    obtain ⟨hstart, -, -, hps⟩ := hlaid
    rw [render, List.append_assoc]
    rcases List.mem_cons.mp hp with rfl | hp
    · rw [show p.start - pos = padding pos by omega, List.drop_left' (List.length_replicate ..)]
      exact List.prefix_append _ _
    · have hle : q.finish ≤ p.start := le_start hps p hp
      have hlen : (List.replicate (padding pos) (0 : UInt8) ++ q.bytes).length = q.finish - pos := by
        rw [List.length_append, List.length_replicate, Placed.length_bytes, Placed.finish]
        omega
      rw [← List.append_assoc, show p.start - pos = (q.finish - pos) + (p.start - q.finish) by
        rw [Placed.finish] at *; omega, ← List.drop_drop, List.drop_left' hlen]
      exact ih hps p hp

end Ambar
