import Ambar.Log.Reader

/-!
# What a reader delivers

A reader in front of physical records that are whole delivers them one after the
other, across blocks and padding. From these `read_record` puts payloads together
until the reader is stuck.

* `readerAt_delivers`: physical records standing in a file.
* `readRecords_spec`: payloads, then false.
-/

namespace Ambar

/-- The reader delivers the records and has then become the other one. -/
inductive Delivers : LogReader → List Placed → LogReader → Prop where
  | nil (r : LogReader) : Delivers r [] r
  | cons {r r' r'' : LogReader} {p : Placed} {ps : List Placed}
      (hp : r.readPhysicalRecord = (some (some p.type, p.data), r'))
      (hps : Delivers r' ps r'') : Delivers r (p :: ps) r''

/-- The reader gets no further: it stops, or the record it reads has no known type. Then
    `damaged` is the verdict. -/
inductive Stuck (r : LogReader) (damaged : Bool) : Prop where
  | stops (r' : LogReader) (hr : r.readPhysicalRecord = (none, r')) (heof : r'.eof = true)
      (hd : r'.damaged = damaged)
  | unknown (type : Option RecordType) (fragment : Bytes) (r' : LogReader)
      (hr : r.readPhysicalRecord = (some (type, fragment), r')) (htype : knownType type = false)
      (hd : ∀ reason, (r'.stop reason
        (r'.blockOffset - kHeaderSize - fragment.length)).damaged = damaged)

/-- The reader has a block and has not come to an end. -/
structure LogReader.Live (r : LogReader) : Prop where
  eof : r.eof = false
  block : r.block ≠ []

/-- The bytes a reader has not passed. -/
def LogReader.remaining (r : LogReader) : ℕ := r.source.length + (r.block.length - r.blockOffset)

/-! ## Physical records -/

section

variable {r r' r'' : LogReader} {p : Placed} {ps qs : List Placed}

theorem LogReader.readHere_some {f : Option RecordType × Bytes} (hr : r.readHere = (some f, r')) :
    r'.eof = r.eof ∧ r'.block ≠ [] ∧ r'.remaining + kHeaderSize ≤ r.remaining := by
  unfold LogReader.readHere at hr
  simp only at hr
  split_ifs at hr with h1 h2 h3 h4 h5 <;>
    simp only [Prod.mk.injEq, reduceCtorEq, false_and] at hr
  obtain ⟨-, rfl⟩ := hr
  refine ⟨rfl, fun hnil => ?_, ?_⟩
  · have hnil' : r.block = [] := hnil
    rw [hnil', List.length_nil] at h1
    unfold kHeaderSize at h1
    omega
  · unfold LogReader.remaining kHeaderSize at *
    simp only
    omega

theorem LogReader.readPhysicalRecord_some {f : Option RecordType × Bytes}
    (hr : r.readPhysicalRecord = (some f, r')) :
    r'.eof = r.eof ∧ r'.block ≠ [] ∧ r'.remaining + kHeaderSize ≤ r.remaining := by
  unfold LogReader.readPhysicalRecord at hr
  split_ifs at hr with hfull
  · unfold LogReader.loadNextBlock at hr
    by_cases hnil : r.source.take kBlockSize = []
    · rw [if_pos hnil] at hr
      cases hr
    · rw [if_neg hnil] at hr
      obtain ⟨heof, hblock, hrem⟩ := LogReader.readHere_some hr
      refine ⟨heof, hblock, hrem.trans ?_⟩
      simp only [LogReader.remaining, List.length_drop, List.length_take, Nat.sub_zero]
      omega
  · exact LogReader.readHere_some hr

theorem LogReader.Live.next (h : r.Live) {f : Option RecordType × Bytes}
    (hr : r.readPhysicalRecord = (some f, r')) : r'.Live :=
  ⟨(LogReader.readPhysicalRecord_some hr).1.trans h.eof, (LogReader.readPhysicalRecord_some hr).2.1⟩

namespace Delivers

theorem of_append (h : Delivers r (ps ++ qs) r'') :
    ∃ r', Delivers r ps r' ∧ Delivers r' qs r'' := by
  induction ps generalizing r with
  | nil => exact ⟨r, .nil r, h⟩
  | cons p ps ih =>
    cases h with
    | cons hp hps =>
      obtain ⟨r', h1, h2⟩ := ih hps
      exact ⟨r', .cons hp h1, h2⟩

theorem live (h : Delivers r ps r') (hr : r.Live) : r'.Live := by
  induction h with
  | nil r => exact hr
  | cons hp _ ih => exact ih (hr.next hp)

theorem length_le (h : Delivers r ps r') : ps.length ≤ r.remaining := by
  induction h with
  | nil r => exact Nat.zero_le _
  | cons hp _ ih =>
    have := (LogReader.readPhysicalRecord_some hp).2.2
    unfold kHeaderSize at this
    rw [List.length_cons]
    omega

end Delivers

end

/-- A reader at the offset `offset` of the block `b` of a file. -/
def readerAt (file : Bytes) (b offset : ℕ) : LogReader where
  source := file.drop ((b + 1) * kBlockSize)
  block := (file.drop (b * kBlockSize)).take kBlockSize
  blockOffset := offset
  eof := false
  truncated := false
  damaged := false
  failureReason := ""

section

variable {file : Bytes} {b offset : ℕ}

theorem length_block : (readerAt file b offset).block.length =
    min kBlockSize (file.length - b * kBlockSize) := by
  simp [readerAt]

/-- The bytes of the block from an offset on. -/
theorem block_drop (k : ℕ) : (readerAt file b offset).block.drop k =
    (file.drop (b * kBlockSize + k)).take (kBlockSize - k) := by
  show ((file.drop (b * kBlockSize)).take kBlockSize).drop k = _
  rw [List.drop_take, List.drop_drop]

theorem loadNextBlock_readerAt (h : (b + 1) * kBlockSize < file.length) :
    (readerAt file b offset).loadNextBlock = (true, readerAt file (b + 1) 0) := by
  have hne : (file.drop ((b + 1) * kBlockSize)).take kBlockSize ≠ [] := by
    rw [Ne, ← List.length_eq_zero_iff, List.length_take, List.length_drop]
    unfold kBlockSize at *
    omega
  have hsource : (file.drop ((b + 1) * kBlockSize)).drop kBlockSize =
      file.drop ((b + 1 + 1) * kBlockSize) := by
    rw [List.drop_drop, ← Nat.succ_mul]
  unfold LogReader.loadNextBlock
  simp only [readerAt, hsource]
  split_ifs with hnil
  · exact absurd hnil hne
  · rfl

/-- The reader goes on to the next block. -/
theorem readPhysicalRecord_next (h : (b + 1) * kBlockSize < file.length)
    (hoff : kBlockSize < offset + kHeaderSize) :
    (readerAt file b offset).readPhysicalRecord = (readerAt file (b + 1) 0).readHere := by
  have hlen : (readerAt file b offset).block.length = kBlockSize := by
    rw [length_block]
    have : kBlockSize ≤ file.length - b * kBlockSize := by
      rw [Nat.add_mul] at h
      omega
    omega
  unfold LogReader.readPhysicalRecord
  rw [if_pos ⟨by rw [hlen]; exact hoff, hlen⟩, loadNextBlock_readerAt h]

/-- The reader stays in the block. -/
theorem readPhysicalRecord_here
    (h : ¬ ((readerAt file b offset).block.length < offset + kHeaderSize ∧
      (readerAt file b offset).block.length = kBlockSize)) :
    (readerAt file b offset).readPhysicalRecord = (readerAt file b offset).readHere := by
  unfold LogReader.readPhysicalRecord
  exact if_neg h

variable {p : Placed}

/-- A record that is whole, in front of a reader. -/
theorem LogReader.readHere_record {r : LogReader} {type : RecordType} {data x : Bytes}
    (hdrop : r.block.drop r.blockOffset = physicalRecord type data ++ x)
    (hd : data.length < 65536) (htype : type ≠ .zero) :
    r.readHere = (some (some type, data),
      { r with blockOffset := r.blockOffset + kHeaderSize + data.length }) := by
  have hlen : r.blockOffset + kHeaderSize + data.length ≤ r.block.length := by
    have := congrArg List.length hdrop
    rw [List.length_drop, List.length_append, length_physicalRecord] at this
    unfold kHeaderSize at *
    omega
  have hheader := @parseHeader_physicalRecord type data x hd
  have hcrc := @actualCrc_physicalRecord type data x hd
  have hzero := not_isZeroed_physicalRecord x hd htype
  rw [hheader] at hcrc hzero
  unfold LogReader.readHere
  simp only [hdrop, hheader, hzero, hcrc, data_physicalRecord, Header.type, RecordType.ofByte_toByte]
  rw [if_neg (by omega), if_neg Bool.false_ne_true, if_neg (by omega), if_neg (by simp)]

theorem readHere_placed (htype : p.type ≠ .zero)
    (hfit : offset + kHeaderSize + p.data.length ≤ kBlockSize)
    (hbytes : p.bytes <+: file.drop (b * kBlockSize + offset)) :
    (readerAt file b offset).readHere =
      (some (some p.type, p.data), readerAt file b (offset + kHeaderSize + p.data.length)) := by
  obtain ⟨rest, hrest⟩ := hbytes
  have hd : p.data.length < 65536 := by
    unfold kBlockSize at hfit
    omega
  refine @LogReader.readHere_record (readerAt file b offset) p.type p.data
    (rest.take (kBlockSize - offset - p.bytes.length)) ?_ hd htype
  show (readerAt file b offset).block.drop offset = _
  rw [block_drop, ← hrest, List.take_append, List.take_of_length_le]
  · rfl
  · rw [Placed.length_bytes]
    omega

/-- The reader comes to the place of the next record. -/
theorem readPhysicalRecord_start {pos start : ℕ} (hoff : offset ≤ kBlockSize)
    (hpos : pos = b * kBlockSize + offset) (hstart : start = pos + padding pos)
    (hlen : start < file.length) :
    (readerAt file b offset).readPhysicalRecord =
      (readerAt file (start / kBlockSize) (start % kBlockSize)).readHere := by
  by_cases hroom : offset + kHeaderSize ≤ kBlockSize
  · -- the header follows at once
    have hpad : padding pos = 0 := by
      rw [padding, if_neg]
      unfold kBlockSize kHeaderSize at *
      omega
    have hdiv : start / kBlockSize = b := by
      unfold kBlockSize kHeaderSize at *
      omega
    have hmod : start % kBlockSize = offset := by
      unfold kBlockSize kHeaderSize at *
      omega
    rw [hdiv, hmod, readPhysicalRecord_here (by omega)]
  · -- it starts the next block
    have hnext : start = (b + 1) * kBlockSize := by
      rw [hstart, padding]
      unfold kBlockSize kHeaderSize at *
      split_ifs <;> omega
    rw [readPhysicalRecord_next (by omega) (by omega), hnext, Nat.mul_div_cancel _ (by decide),
      Nat.mul_mod_left]

/-- **A record that is whole is delivered**, from the position before it on. -/
theorem readPhysicalRecord_placed {pos : ℕ} (hoff : offset ≤ kBlockSize)
    (hpos : pos = b * kBlockSize + offset) (hstart : p.start = pos + padding pos)
    (hfit : p.start % kBlockSize + kHeaderSize + p.data.length ≤ kBlockSize)
    (htype : p.type ≠ .zero) (hbytes : p.bytes <+: file.drop p.start) :
    (readerAt file b offset).readPhysicalRecord = (some (some p.type, p.data),
      readerAt file (p.start / kBlockSize) (p.start % kBlockSize + kHeaderSize + p.data.length)) := by
  have hlen : p.start < file.length := by
    have := hbytes.length_le
    rw [Placed.length_bytes, List.length_drop] at this
    unfold kHeaderSize at this
    omega
  rw [readPhysicalRecord_start hoff hpos hstart hlen]
  exact readHere_placed htype hfit (by rwa [Nat.div_add_mod'])

/-- **Records that are whole are delivered.** -/
theorem readerAt_delivers {ps : List Placed} :
    ∀ {pos b offset : ℕ}, offset ≤ kBlockSize → pos = b * kBlockSize + offset → Laid pos ps →
      (∀ p ∈ ps, p.bytes <+: file.drop p.start) →
      ∃ b' offset', offset' ≤ kBlockSize ∧ endOf pos ps = b' * kBlockSize + offset' ∧
        Delivers (readerAt file b offset) ps (readerAt file b' offset') := by
  induction ps with
  | nil => exact fun hoff hpos _ _ => ⟨_, _, hoff, hpos, .nil _⟩
  | cons p ps ih =>
    intro pos b offset hoff hpos hlaid hbytes
    obtain ⟨hstart, hfit, htype, hps⟩ := hlaid
    have hread := readPhysicalRecord_placed hoff hpos hstart hfit htype
      (hbytes p List.mem_cons_self)
    have hfinish : p.finish = p.start / kBlockSize * kBlockSize +
        (p.start % kBlockSize + kHeaderSize + p.data.length) := by
      have := Nat.div_add_mod' p.start kBlockSize
      unfold Placed.finish
      omega
    obtain ⟨b', offset', h1, h2, h3⟩ := ih hfit hfinish hps fun q hq =>
      hbytes q (List.mem_cons_of_mem _ hq)
    exact ⟨b', offset', h1, by rw [endOf_cons, h2], .cons hread h3⟩

end

/-! ## Payloads -/

section

variable {r r' : LogReader} {damaged : Bool}

/-- The call of `read_record` returns false with this verdict. -/
def LogReader.Ends (r : LogReader) (damaged : Bool) : Prop :=
  ∃ r', r.readRecord = (none, r') ∧ r'.eof = true ∧ r'.damaged = damaged

theorem LogReader.Live.readRecord (h : r.Live) : r.readRecord = r.readLoaded := by
  rw [LogReader.readRecord, h.eof, if_neg Bool.false_ne_true, if_neg h.block]

theorem readFragments_delivers {middles : List Placed} {q : Placed} (hq : q.type = .last) :
    ∀ {turns : ℕ} {scratch : Bytes} {r : LogReader}, (∀ m ∈ middles, m.type = .middle) →
      Delivers r (middles ++ [q]) r' → middles.length < turns →
      r.readFragments turns scratch =
        (some (scratch ++ middles.flatMap Placed.data ++ q.data), r') := by
  induction middles with
  | nil =>
    intro turns scratch r _ h hlt
    obtain ⟨turns, rfl⟩ := Nat.exists_eq_succ_of_ne_zero (by omega : turns ≠ 0)
    cases h with
    | cons hp hps =>
      cases hps
      rw [LogReader.readFragments, hp, hq]
      simp
  | cons m middles ih =>
    intro turns scratch r hm h hlt
    obtain ⟨turns, rfl⟩ := Nat.exists_eq_succ_of_ne_zero (by omega : turns ≠ 0)
    cases h with
    | cons hp hps =>
      rw [LogReader.readFragments, hp, hm m List.mem_cons_self]
      simp only [if_pos]
      rw [ih (fun m' hm' => hm m' (List.mem_cons_of_mem _ hm')) hps (by simpa using hlt)]
      simp [List.append_assoc]

theorem readFragments_stuck {middles : List Placed} (hstuck : Stuck r' damaged) :
    ∀ {turns : ℕ} {scratch : Bytes} {r : LogReader}, (∀ m ∈ middles, m.type = .middle) →
      Delivers r middles r' → middles.length < turns →
      ∃ r'', r.readFragments turns scratch = (none, r'') ∧ r''.eof = true ∧ r''.damaged = damaged := by
  induction middles with
  | nil =>
    intro turns scratch r _ h hlt
    obtain ⟨turns, rfl⟩ := Nat.exists_eq_succ_of_ne_zero (by omega : turns ≠ 0)
    cases h
    cases hstuck with
    | stops r'' hr heof hd =>
      rw [LogReader.readFragments, hr]
      exact ⟨_, rfl, heof, hd⟩
    | unknown type fragment r'' hr htype hd =>
      have h1 : type ≠ some .middle := fun h => by simp [h, knownType] at htype
      have h2 : type ≠ some .last := fun h => by simp [h, knownType] at htype
      rw [LogReader.readFragments, hr]
      simp only [if_neg h1, if_neg h2]
      exact ⟨_, rfl, rfl, hd _⟩
  | cons m middles ih =>
    intro turns scratch r hm h hlt
    obtain ⟨turns, rfl⟩ := Nat.exists_eq_succ_of_ne_zero (by omega : turns ≠ 0)
    cases h with
    | cons hp hps =>
      rw [LogReader.readFragments, hp, hm m List.mem_cons_self]
      simp only [if_pos]
      exact ih (fun m' hm' => hm m' (List.mem_cons_of_mem _ hm')) hps (by simpa using hlt)

/-- The bound of `read_record` on the fragments after the first is enough. -/
theorem Delivers.lt_turns {ps : List Placed} (h : Delivers r ps r') :
    ps.length < r.source.length + r.block.length + 1 := by
  have := h.length_le
  unfold LogReader.remaining at this
  omega

/-- **A payload whose fragments are delivered is returned.** -/
theorem readRecord_fragmented (hlive : r.Live) {payload : Bytes} {ps : List Placed}
    (hfrag : Fragmented payload ps) (h : Delivers r ps r') : r.readRecord = (some payload, r') := by
  rw [hlive.readRecord, LogReader.readLoaded]
  cases hfrag with
  | full start =>
    cases h with
    | cons hp hps =>
      cases hps
      rw [hp]
      simp
  | split p middles q hp hm hq =>
    cases h with
    | cons hread hps =>
      rw [hread, hp]
      simp only [reduceCtorEq, if_false, ne_eq, not_true_eq_false, Option.some.injEq]
      have hlt := hps.lt_turns
      rw [List.length_append, List.length_singleton] at hlt
      exact readFragments_delivers hq hm hps (by omega)

theorem Stuck.ends (hlive : r.Live) (hstuck : Stuck r damaged) : r.Ends damaged := by
  unfold LogReader.Ends
  rw [hlive.readRecord, LogReader.readLoaded]
  cases hstuck with
  | stops r' hr heof hd =>
    rw [hr]
    exact ⟨r', rfl, heof, hd⟩
  | unknown type fragment r' hr htype hd =>
    have h1 : type ≠ some .full := fun h => by simp [h, knownType] at htype
    have h2 : type ≠ some .first := fun h => by simp [h, knownType] at htype
    rw [hr]
    simp only [if_neg h1, if_pos h2]
    exact ⟨_, rfl, rfl, hd _⟩

/-- A payload some of whose fragments are delivered is not returned. -/
theorem readRecord_stuck (hlive : r.Live) {payload : Bytes} {ps qs : List Placed} (hqs : qs ≠ [])
    (hfrag : Fragmented payload (ps ++ qs)) (h : Delivers r ps r') (hstuck : Stuck r' damaged) :
    r.Ends damaged := by
  cases h with
  | nil => exact hstuck.ends hlive
  | @cons _ r₁ _ p ps hread hps =>
    rw [List.cons_append] at hfrag
    generalize hall : p :: (ps ++ qs) = all at hfrag
    cases hfrag with
    | full start =>
      obtain ⟨-, hnil⟩ := List.cons.inj hall
      exact absurd (List.append_eq_nil_iff.mp hnil).2 hqs
    | split p' middles q hp hm hq =>
      obtain ⟨rfl, htail⟩ := List.cons.inj hall
      -- what is delivered after the first fragment are middle ones
      have hmiddles : ∀ m ∈ ps, m.type = .middle := by
        intro m hmem
        have hdrop : ps = (middles ++ [q]).take ps.length := by
          rw [← htail, List.take_left]
        have hlt : ps.length < (middles ++ [q]).length := by
          rw [← htail, List.length_append]
          have := List.length_pos_iff.mpr hqs
          omega
        rw [List.length_append, List.length_singleton] at hlt
        rw [hdrop, List.take_append_of_le_length (by omega)] at hmem
        exact hm m (List.mem_of_mem_take hmem)
      unfold LogReader.Ends
      rw [hlive.readRecord, LogReader.readLoaded, hread, hp]
      simp only [reduceCtorEq, if_false, ne_eq, not_true_eq_false, Option.some.injEq]
      exact readFragments_stuck hstuck hmiddles hps hps.lt_turns

/-- **Reading to the stop**: the payloads all of whose fragments are delivered. -/
theorem readRecords_spec {payloads : List Bytes} {groups : List (List Placed)} {rest : List Placed}
    (hall : List.Forall₂ Fragmented payloads groups) (hstuck : Stuck r' damaged)
    (hrest : rest = [] ∨ ∃ payload qs, qs ≠ [] ∧ Fragmented payload (rest ++ qs)) :
    ∀ {turns : ℕ} {r : LogReader}, r.Live → Delivers r (groups.flatten ++ rest) r' →
      payloads.length < turns →
      ∃ r'', r.readRecords turns = (payloads, r'') ∧ r''.eof = true ∧ r''.damaged = damaged := by
  induction hall with
  | nil =>
    intro turns r hlive h hlt
    obtain ⟨turns, rfl⟩ := Nat.exists_eq_succ_of_ne_zero (by omega : turns ≠ 0)
    have hends : r.Ends damaged := by
      rcases hrest with rfl | ⟨payload, qs, hqs, hfrag⟩
      · cases h
        exact hstuck.ends hlive
      · exact readRecord_stuck hlive hqs hfrag h hstuck
    obtain ⟨r'', hr, heof, hd⟩ := hends
    rw [LogReader.readRecords, hr]
    exact ⟨r'', rfl, heof, hd⟩
  | cons hfrag _ ih =>
    intro turns r hlive h hlt
    obtain ⟨turns, rfl⟩ := Nat.exists_eq_succ_of_ne_zero (by omega : turns ≠ 0)
    rw [List.flatten_cons, List.append_assoc] at h
    obtain ⟨r₁, h1, h2⟩ := h.of_append
    obtain ⟨r'', hr, heof, hd⟩ := ih (h1.live hlive) h2 (by simpa using hlt)
    rw [LogReader.readRecords, readRecord_fragmented hlive hfrag h1]
    simp only [hr]
    exact ⟨r'', rfl, heof, hd⟩

end

/-- A file that is not empty is read from its first block on. -/
theorem readLog_eq {file : Bytes} (h : file ≠ []) :
    readLog file = (readerAt file 0 0).readRecords (file.length + 1) ∧ (readerAt file 0 0).Live := by
  have hne : file.take kBlockSize ≠ [] := by
    rw [Ne, List.take_eq_nil_iff]
    exact fun hor => hor.elim (by decide) h
  have hlive : (readerAt file 0 0).Live := ⟨rfl, by simpa [readerAt] using hne⟩
  refine ⟨?_, hlive⟩
  have hload : (LogReader.new file).loadNextBlock = (true, readerAt file 0 0) := by
    unfold LogReader.loadNextBlock LogReader.new
    simp only
    rw [if_neg hne]
    simp [readerAt]
  have hread : (LogReader.new file).readRecord = (readerAt file 0 0).readRecord := by
    rw [hlive.readRecord, LogReader.readRecord, hload]
    rfl
  rw [readLog, LogReader.readRecords, LogReader.readRecords, hread]

end Ambar
