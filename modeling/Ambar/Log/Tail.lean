import Ambar.Log.Delivery

/-!
# Logs cut short

A crash leaves a log cut at some byte. The reader returns the payloads whose last
physical record is whole, and stops. The stop is a torn tail unless the bytes kept of
the torn record contain, from some position on to the cut, what reads as intact
records: the search past the failure looks at every byte, and the payload is the
application's.

* `keptPayloads`: the payloads whose last physical record lies within the bytes kept.
* `TornImage`: the torn record holds a chain of records that ends at the cut.
* `readLog_take`: what a reader makes of a log cut at any byte.
* `readLog_take_records`, `damaged_take_iff`: its two halves.
-/

namespace Ambar

/-- The payloads whose last physical record lies within the first `n` bytes. -/
def keptPayloads (payloads : List Bytes) (n : ℕ) : List Bytes :=
  ((payloads.zip (LogWriter.new.recordEnds payloads)).filter fun p => decide (p.2 ≤ n)).map (·.1)

/-- The cut falls into a physical record, and from some later position on the bytes kept
    are intact records. -/
def TornImage (payloads : List Bytes) (n : ℕ) : Prop :=
  ∃ p ∈ (writeLog payloads).emitted, p.start < n ∧ n < p.finish ∧
    ∃ at_, p.start < at_ ∧ IntactChain (((writeLog payloads).dest.take n).drop at_)

/-! ## The records before the cut -/

/-- Records laid out, up to the first that ends past `n`. -/
theorem exists_split_of_lt_endOf {ps : List Placed} {pos n : ℕ} (hlt : n < endOf pos ps)
    (hpos : pos ≤ n) : ∃ rest q qs, ps = rest ++ q :: qs ∧ (∀ p ∈ rest, p.finish ≤ n) ∧
      n < q.finish := by
  induction ps generalizing pos with
  | nil =>
    rw [endOf_nil] at hlt
    omega
  | cons p ps ih =>
    rw [endOf_cons] at hlt
    by_cases hp : p.finish ≤ n
    · obtain ⟨rest, q, qs, rfl, hrest, hq⟩ := ih hlt hp
      refine ⟨p :: rest, q, qs, rfl, fun x hx => ?_, hq⟩
      rcases List.mem_cons.mp hx with rfl | hx
      · exact hp
      · exact hrest x hx
    · exact ⟨[], p, ps, rfl, by simp, by omega⟩

theorem groupEnds_gt {groups : List (List Placed)} :
    ∀ {pos n : ℕ}, Laid pos groups.flatten → n < pos → ∀ e ∈ LogWriter.groupEnds pos groups, n < e := by
  induction groups with
  | nil => simp [LogWriter.groupEnds]
  | cons g groups ih =>
    intro pos n hlaid hlt e he
    obtain ⟨hg, hgroups⟩ := laid_append.mp (List.flatten_cons ▸ hlaid)
    have hle := le_endOf hg
    rcases List.mem_cons.mp he with rfl | he
    · omega
    · exact ih hgroups (by omega) e he

/-- What the cut at `n` keeps of the physical records: whole groups, then the first
    records of one more. -/
theorem exists_kept {payloads : List Bytes} {groups : List (List Placed)} {n : ℕ}
    (hall : List.Forall₂ Fragmented payloads groups) :
    ∀ {pos : ℕ}, Laid pos groups.flatten → pos ≤ n → ∃ (kept : List (List Placed))
      (rest qs : List Placed),
      List.Forall₂ Fragmented (((payloads.zip (LogWriter.groupEnds pos groups)).filter fun p =>
        decide (p.2 ≤ n)).map (·.1)) kept ∧
      groups.flatten = kept.flatten ++ rest ++ qs ∧
      (∀ p ∈ kept.flatten ++ rest, p.finish ≤ n) ∧
      (∀ q ∈ qs.head?, n < q.finish) ∧
      (rest = [] ∨ ∃ payload qs', qs' ≠ [] ∧ Fragmented payload (rest ++ qs')) := by
  induction hall with
  | nil => exact fun _ _ => ⟨[], [], [], .nil, rfl, by simp, by simp, Or.inl rfl⟩
  | @cons payload g payloads groups hfrag _ ih =>
    intro pos hlaid hpos
    obtain ⟨hg, hgroups⟩ := laid_append.mp (List.flatten_cons ▸ hlaid)
    rw [LogWriter.groupEnds, List.zip_cons_cons]
    by_cases hend : endOf pos g ≤ n
    · obtain ⟨kept, rest, qs, h1, h2, h3, h4, h5⟩ := ih hgroups hend
      refine ⟨g :: kept, rest, qs, ?_, ?_, fun p hp => ?_, h4, h5⟩
      · rw [List.filter_cons_of_pos (by simpa using hend), List.map_cons]
        exact .cons hfrag h1
      · rw [List.flatten_cons, List.flatten_cons, h2]
        simp only [List.append_assoc]
      · rw [List.flatten_cons, List.append_assoc] at hp
        rcases List.mem_append.mp hp with hp | hp
        · exact (finish_le hg p hp).trans hend
        · exact h3 p hp
    · -- the cut falls before the end of this payload
      obtain ⟨rest, q, qs, rfl, hrest, hq⟩ := exists_split_of_lt_endOf (not_le.mp hend) hpos
      refine ⟨[], rest, q :: qs ++ groups.flatten, ?_, ?_, ?_, ?_, ?_⟩
      · rw [List.filter_cons_of_neg (by simpa using hend), List.filter_eq_nil_iff.mpr]
        · exact .nil
        · intro p hp
          have := groupEnds_gt hgroups (by omega : n < _) p.2 (List.of_mem_zip hp).2
          simp only [decide_eq_true_eq]
          omega
      · rw [List.flatten_cons]
        simp
      · simpa using hrest
      · simpa using hq
      · exact Or.inr ⟨payload, q :: qs, by simp, hfrag⟩

/-! ## The stop -/

section

variable {file : Bytes} {b offset : ℕ}

theorem parseHeader_take {p : Bytes} {k : ℕ} (hk : kHeaderSize ≤ k) :
    parseHeader (p.take k) = parseHeader p := by
  unfold kHeaderSize at hk
  have hget : ∀ i, i < 7 → (p.take k).getD i 0 = p.getD i 0 := by
    intro i hi
    rw [List.getD_eq_getElem?_getD, List.getD_eq_getElem?_getD, List.getElem?_take, if_pos (by omega)]
  rw [parseHeader, parseHeader, List.take_take, Nat.min_eq_left (by omega), hget 4 (by omega),
    hget 5 (by omega), hget 6 (by omega)]

/-- In a block that is not full, with nothing to walk, the search is the one by bytes. -/
theorem stop_damaged_iff {r : LogReader} (hlt : r.block.length < kBlockSize)
    (hoff : r.blockOffset < r.block.length) (reason : String) :
    (r.stop reason r.block.length).damaged = true ↔
      ∃ k, 1 ≤ k ∧ IntactChain ((r.block.drop r.blockOffset).drop k) := by
  have hwalk : walk (r.block.length + 1) (r.block.drop r.block.length) = false := by
    rw [List.drop_length]
    rfl
  unfold LogReader.stop
  simp only
  rw [if_neg (by omega), readableRecordFollows, hwalk, if_neg Bool.false_ne_true]
  have hscan := @scan_iff r.block (r.blockOffset + 1)
  rw [if_pos hlt]
  constructor
  · intro h
    split_ifs at h with hs
    obtain ⟨at_, hle, hchain⟩ := hscan.mp hs
    refine ⟨at_ - r.blockOffset, by omega, ?_⟩
    rwa [List.drop_drop, show r.blockOffset + (at_ - r.blockOffset) = at_ by omega]
  · rintro ⟨k, hk, hchain⟩
    rw [List.drop_drop] at hchain
    rw [if_pos (hscan.mpr ⟨r.blockOffset + k, by omega, hchain⟩)]

/-- **A torn record in front of the reader**: some of its bytes, to the end of the file. -/
theorem readHere_torn {q : Placed} {k : ℕ} (htype : q.type ≠ .zero)
    (hfit : offset + kHeaderSize + q.data.length ≤ kBlockSize)
    (htail : file.drop (b * kBlockSize + offset) = q.bytes.take k) (hk : 0 < k)
    (hlt : k < kHeaderSize + q.data.length) :
    ∃ r', (readerAt file b offset).readHere = (none, r') ∧ r'.eof = true ∧
      (r'.damaged = true ↔ ∃ j, 1 ≤ j ∧ IntactChain ((q.bytes.take k).drop j)) := by
  have hdrop : (readerAt file b offset).block.drop offset = q.bytes.take k := by
    rw [block_drop, htail, List.take_take, Nat.min_eq_right (by omega)]
  have hlen : (readerAt file b offset).block.length = offset + k := by
    have := congrArg List.length hdrop
    rw [List.length_drop, List.length_take, Placed.length_bytes] at this
    omega
  have hiff := fun reason => @stop_damaged_iff (readerAt file b offset) (by rw [hlen]; omega)
    (by rw [hlen]; show offset < _; omega) reason
  rw [show (readerAt file b offset).blockOffset = offset from rfl, hdrop] at hiff
  unfold LogReader.readHere
  by_cases hheader : k < kHeaderSize
  · rw [if_pos (by rw [hlen]; show _ < offset + _; omega), if_pos (by
      rw [hlen]
      show offset < _
      omega)]
    exact ⟨_, rfl, rfl, hiff _⟩
  · have hd : q.data.length < 65536 := by
      unfold kBlockSize at hfit
      omega
    have hparse : parseHeader (q.bytes.take k) =
        ⟨recordCrc q.type.toByte q.data, q.data.length, q.type.toByte⟩ := by
      rw [parseHeader_take (by omega), ← List.append_nil q.bytes]
      exact parseHeader_physicalRecord [] hd
    have hzero := not_isZeroed_physicalRecord [] hd htype
    rw [parseHeader_physicalRecord [] hd] at hzero
    rw [if_neg (by rw [hlen]; show ¬ _ < offset + _; omega)]
    simp only [show (readerAt file b offset).blockOffset = offset from rfl, hdrop, hparse, hzero]
    rw [if_neg Bool.false_ne_true, if_pos (by rw [hlen]; omega)]
    exact ⟨_, rfl, rfl, hiff _⟩

/-- A reader with fewer bytes in front of it than a header takes, in a block that is not
    full. -/
theorem readHere_short {r : LogReader} (hd : r.damaged = false) (hlt : r.block.length < kBlockSize)
    (hshort : r.block.length < r.blockOffset + kHeaderSize) :
    ∃ r', r.readHere = (none, r') ∧ r'.eof = true ∧ r'.damaged = false := by
  unfold LogReader.readHere
  rw [if_pos hshort]
  split_ifs with hoff
  · refine ⟨_, rfl, rfl, Bool.eq_false_iff.mpr fun hd => ?_⟩
    obtain ⟨k, -, hchain⟩ := (stop_damaged_iff hlt hoff _).mp hd
    have := hchain.header.1
    rw [List.length_drop, List.length_drop] at this
    omega
  · exact ⟨_, rfl, rfl, hd⟩

/-- A reader at the end of the last block of a file. -/
theorem readPhysicalRecord_end (hfull : (readerAt file b offset).block.length = kBlockSize)
    (hoff : kBlockSize < offset + kHeaderSize) (hlen : file.length ≤ (b + 1) * kBlockSize) :
    ∃ r', (readerAt file b offset).readPhysicalRecord = (none, r') ∧ r'.eof = true ∧
      r'.damaged = false := by
  have hnil : (readerAt file b offset).source.take kBlockSize = [] := by
    rw [readerAt, List.drop_eq_nil_of_le hlen, List.take_nil]
  unfold LogReader.readPhysicalRecord
  rw [if_pos ⟨by rw [hfull]; exact hoff, hfull⟩, LogReader.loadNextBlock]
  simp only [hnil, if_true]
  exact ⟨_, rfl, rfl, rfl⟩

/-- The torn record is the next one, and starts at `start`. -/
theorem readHere_torn_at {q : Placed} {start n : ℕ} (htype : q.type ≠ .zero)
    (hstart : start = b * kBlockSize + offset) (hq : q.start = start)
    (hfit : offset + kHeaderSize + q.data.length ≤ kBlockSize) (hlt : start < n)
    (htail : file.drop start = q.bytes.take (n - start)) (hcut : n < q.finish) :
    ∃ r', (readerAt file b offset).readHere = (none, r') ∧ r'.eof = true ∧
      (r'.damaged = true ↔ ∃ at_, q.start < at_ ∧ IntactChain (file.drop at_)) := by
  unfold Placed.finish at hcut
  obtain ⟨r', hr, heof, hiff⟩ := @readHere_torn file b offset q (n - start) htype hfit
    (by rw [← hstart]; exact htail) (by omega) (by omega)
  refine ⟨r', hr, heof, hiff.trans ?_⟩
  rw [← htail, hq]
  constructor
  · rintro ⟨j, hj, hchain⟩
    rw [List.drop_drop] at hchain
    exact ⟨start + j, by omega, hchain⟩
  · rintro ⟨at_, hat, hchain⟩
    refine ⟨at_ - start, by omega, ?_⟩
    rwa [List.drop_drop, show start + (at_ - start) = at_ by omega]

/-- **The end of the bytes in front of the reader**, among the records `qs` to come. -/
theorem stuck_take {pos n : ℕ} {qs : List Placed} (hoff : offset ≤ kBlockSize)
    (hpos : pos = b * kBlockSize + offset) (hlaid : Laid pos qs) (hn : pos ≤ n)
    (hlen : file.length = n) (htail : file.drop pos = (render pos qs).take (n - pos))
    (hcut : ∀ q ∈ qs.head?, n < q.finish) (hend : qs = [] → n = pos) :
    ∃ r', (readerAt file b offset).readPhysicalRecord = (none, r') ∧ r'.eof = true ∧
      (r'.damaged = true ↔ ∃ q ∈ qs.head?, q.start < n ∧
        ∃ at_, q.start < at_ ∧ IntactChain (file.drop at_)) := by
  have hblock : (readerAt file b offset).block.length = min kBlockSize (n - b * kBlockSize) := by
    rw [length_block, hlen]
  -- nothing is torn where no record starts before the cut
  have hclean : ∀ r' : LogReader, r'.damaged = false → (∀ q ∈ qs.head?, n ≤ q.start) →
      (r'.damaged = true ↔ ∃ q ∈ qs.head?, q.start < n ∧
        ∃ at_, q.start < at_ ∧ IntactChain (file.drop at_)) := by
    intro r' hd hq
    rw [hd]
    refine ⟨fun h => absurd h Bool.false_ne_true, ?_⟩
    rintro ⟨q, hmem, hlt, -⟩
    have := hq q hmem
    omega
  cases qs with
  | nil =>
    have hn' := hend rfl
    by_cases hfull : offset = kBlockSize
    · -- the file ends with a block
      obtain ⟨r', hr, heof, hd⟩ := @readPhysicalRecord_end file b offset (by rw [hblock]; omega)
        (by unfold kHeaderSize; omega) (by rw [hlen, Nat.succ_mul]; omega)
      exact ⟨r', hr, heof, hclean r' hd (by simp)⟩
    · have hlt : (readerAt file b offset).block.length = offset := by
        rw [hblock]
        omega
      rw [readPhysicalRecord_here (by rw [hlt]; omega)]
      obtain ⟨r', hr, heof, hd⟩ := @readHere_short (readerAt file b offset) rfl (by rw [hlt]; omega)
        (by rw [hlt]; exact Nat.lt_add_of_pos_right (by decide))
      exact ⟨r', hr, heof, hclean r' hd (by simp)⟩
  | cons q qs =>
    obtain ⟨hstart, hfit, htype, -⟩ := hlaid
    have hcut' : n < q.finish := hcut q rfl
    have hhead : ∀ P : Placed → Prop, (∃ q' ∈ (q :: qs).head?, P q') ↔ P q := by
      intro P
      simp
    have htail' : q.start ≤ n → file.drop q.start = q.bytes.take (n - q.start) := by
      intro hle
      rw [show q.start = pos + padding pos by omega, ← List.drop_drop, htail, render,
        List.append_assoc, List.drop_take, List.drop_left' (List.length_replicate ..),
        List.take_append_of_le_length]
      · congr 1
        omega
      · rw [Placed.length_bytes]
        unfold Placed.finish at hcut'
        omega
    by_cases hlt : q.start < n
    · -- the record is torn
      rw [readPhysicalRecord_start hoff hpos hstart (by omega)]
      obtain ⟨r', hr, heof, hiff⟩ := readHere_torn_at htype (Nat.div_add_mod' _ _).symm rfl hfit hlt
        (htail' hlt.le) hcut'
      refine ⟨r', hr, heof, hiff.trans ?_⟩
      rw [hhead fun q => q.start < n ∧ ∃ at_, q.start < at_ ∧ IntactChain (file.drop at_)]
      exact ⟨fun h => ⟨hlt, h⟩, fun h => h.2⟩
    · -- the file ends before it
      have hq : ∀ q' ∈ (q :: qs).head?, n ≤ q'.start := by simp; omega
      have hpad : n - pos < kHeaderSize ∧ n ≤ (b + 1) * kBlockSize := by
        unfold padding at hstart
        unfold kBlockSize kHeaderSize at *
        split_ifs at hstart <;> omega
      by_cases hfull : n = (b + 1) * kBlockSize
      · obtain ⟨r', hr, heof, hd⟩ := @readPhysicalRecord_end file b offset (by
          rw [hblock]
          rw [Nat.succ_mul] at hfull
          omega) (by rw [Nat.succ_mul] at hfull; omega) (by omega)
        exact ⟨r', hr, heof, hclean r' hd hq⟩
      · have hblock' : (readerAt file b offset).block.length = n - b * kBlockSize := by
          rw [hblock]
          rw [Nat.succ_mul] at hfull hpad
          omega
        have hlt' : (readerAt file b offset).block.length < kBlockSize := by
          rw [hblock']
          rw [Nat.succ_mul] at hfull hpad
          omega
        rw [readPhysicalRecord_here (by omega)]
        obtain ⟨r', hr, heof, hd⟩ := readHere_short rfl hlt' (by
          show _ < offset + kHeaderSize
          omega)
        exact ⟨r', hr, heof, hclean r' hd hq⟩

end

/-! ## Reading a log that was cut -/

theorem readLog_nil : readLog [] = ([], { LogReader.new [] with eof := true }) := by
  simp [readLog, LogReader.readRecords, LogReader.readRecord, LogReader.new, LogReader.loadNextBlock]

/-- Groups of fragments are not empty. -/
theorem length_le_flatten {payloads : List Bytes} {groups : List (List Placed)}
    (hall : List.Forall₂ Fragmented payloads groups) : payloads.length ≤ groups.flatten.length := by
  induction hall with
  | nil => exact le_rfl
  | cons hfrag _ ih =>
    have := List.length_pos_iff.mpr hfrag.ne_nil
    rw [List.length_cons, List.flatten_cons, List.length_append]
    omega

/-- A file that starts with the records of some payloads, and maybe the first ones of one
    more, where the reader is stuck after them. -/
theorem readLog_of_stuck {file : Bytes} {payloads : List Bytes} {kept : List (List Placed)}
    {rest : List Placed} {P : Bool → Prop} (hfile : file ≠ [])
    (hkept : List.Forall₂ Fragmented payloads kept)
    (hrest : rest = [] ∨ ∃ payload qs, qs ≠ [] ∧ Fragmented payload (rest ++ qs))
    (hlaid : Laid 0 (kept.flatten ++ rest))
    (hbytes : ∀ p ∈ kept.flatten ++ rest, p.bytes <+: file.drop p.start)
    (hstuck : ∀ b offset, offset ≤ kBlockSize →
      endOf 0 (kept.flatten ++ rest) = b * kBlockSize + offset →
      ∃ damaged, Stuck (readerAt file b offset) damaged ∧ P damaged) :
    ∃ r, readLog file = (payloads, r) ∧ r.eof = true ∧ P r.damaged := by
  obtain ⟨hread, hlive⟩ := readLog_eq hfile
  obtain ⟨b, offset, hoff, hpos, hdel⟩ := @readerAt_delivers file _ 0 0 0 (by decide) rfl hlaid hbytes
  obtain ⟨damaged, hstuck, hP⟩ := hstuck b offset hoff hpos
  have hturns : payloads.length < file.length + 1 := by
    have h1 := length_le_flatten hkept
    have h2 := hdel.length_le
    have h3 : (readerAt file 0 0).remaining = file.length := by
      simp only [LogReader.remaining, readerAt, List.length_drop, List.length_take]
      omega
    rw [List.length_append] at h2
    omega
  obtain ⟨r, hres, heof, hd⟩ := readRecords_spec hkept hstuck hrest hlive hdel hturns
  exact ⟨r, hread.trans hres, heof, hd ▸ hP⟩

/-- **A log cut at any byte**: the reader returns the payloads whose last physical record
    is whole and comes to a stop; the stop is called damage exactly if the torn record
    holds a chain of records up to the cut. -/
theorem readLog_take (payloads : List Bytes) (n : ℕ) :
    ∃ r, readLog ((writeLog payloads).dest.take n) = (keptPayloads payloads n, r) ∧ r.eof = true ∧
      (r.damaged = true ↔ TornImage payloads n) := by
  obtain ⟨groups, hall, hemitted, hlaid, hdest, hends⟩ := writeLog_spec payloads
  obtain ⟨kept, rest, qs, hkept, hsplit, hwhole, hcut, hrest⟩ :=
    exists_kept hall hlaid (Nat.zero_le n)
  rw [← hends] at hkept
  change List.Forall₂ Fragmented (keptPayloads payloads n) kept at hkept
  unfold TornImage
  rw [hemitted, hdest]
  rw [hsplit] at hlaid ⊢
  obtain ⟨hbefore, hafter⟩ := laid_append.mp hlaid
  generalize hm : endOf 0 (kept.flatten ++ rest) = m at hafter
  -- the file, and how much of it is left
  have hF : (render 0 (kept.flatten ++ rest ++ qs)).length = endOf m qs := by
    have := length_render hlaid
    rw [endOf_append, hm] at this
    omega
  have hmF := le_endOf hafter
  have hmn : m ≤ n := by
    rw [← hm]
    rcases List.eq_nil_or_concat (kept.flatten ++ rest) with hnil | ⟨ps, p, heq⟩
    · rw [hnil]
      exact Nat.zero_le n
    · rw [heq] at hwhole ⊢
      have hp := hwhole p (by simp)
      simpa [endOf] using hp
  generalize hG : (render 0 (kept.flatten ++ rest ++ qs)).take n = file
  generalize hn₀ : min n (endOf m qs) = n₀
  have hlen : file.length = n₀ := by rw [← hG, List.length_take, hF, hn₀]
  have hdrop : file.drop m = (render m qs).take (n₀ - m) := by
    have h1 : (render 0 (kept.flatten ++ rest ++ qs)).drop m = render m qs := by
      rw [render_append, hm, List.drop_left']
      have := length_render hbefore
      omega
    rw [← hG, List.drop_take, h1, List.take_eq_take_min]
    have h2 : m + (render m qs).length = endOf m qs := length_render hafter
    congr 1
    omega
  have htorn : (∃ q ∈ qs.head?, q.start < n₀ ∧ ∃ at_, q.start < at_ ∧ IntactChain (file.drop at_)) ↔
      ∃ p ∈ kept.flatten ++ rest ++ qs, p.start < n ∧ n < p.finish ∧
        ∃ at_, p.start < at_ ∧ IntactChain (file.drop at_) := by
    constructor
    · rintro ⟨q, hq, hlt, hchain⟩
      exact ⟨q, List.mem_append_right _ (List.mem_of_mem_head? hq), by omega, hcut q hq, hchain⟩
    · rintro ⟨p, hp, hlt, hfin, hchain⟩
      rcases List.mem_append.mp hp with hp | hp
      · have := hwhole p hp
        omega
      · have hpF := finish_le hafter p hp
        cases qs with
        | nil => cases hp
        | cons q qs =>
          rcases List.mem_cons.mp hp with rfl | hp'
          · exact ⟨p, rfl, by unfold Placed.finish kHeaderSize at hpF; omega, hchain⟩
          · -- a later record starts after the cut
            have h1 := le_start hafter.2.2.2 p hp'
            have h2 := hcut q rfl
            omega
  by_cases hfile : file = []
  · -- nothing is left
    have hzero : n₀ = 0 := by rw [← hlen, hfile, List.length_nil]
    have hnone : kept.flatten ++ rest = [] := by
      rw [List.eq_nil_iff_forall_not_mem]
      intro p hp
      have h1 := hwhole p hp
      have h2 := finish_le hbefore p hp
      unfold Placed.finish kHeaderSize at h1 h2
      omega
    have hpay : keptPayloads payloads n = [] := by
      have := length_le_flatten hkept
      rw [(List.append_eq_nil_iff.mp hnone).1, List.length_nil] at this
      exact List.length_eq_zero_iff.mp (by omega)
    rw [hfile, readLog_nil, hpay]
    refine ⟨_, rfl, rfl, ⟨fun h => absurd h Bool.false_ne_true, fun h => ?_⟩⟩
    rw [hfile] at htorn
    obtain ⟨q, -, hlt, -⟩ := htorn.mpr h
    omega
  · obtain ⟨r, hres, heof, hd⟩ := @readLog_of_stuck file _ kept rest
      (fun d => d = true ↔ ∃ q ∈ qs.head?, q.start < n₀ ∧
        ∃ at_, q.start < at_ ∧ IntactChain (file.drop at_)) hfile hkept hrest hbefore (by
      intro p hp
      have h1 := bytes_prefix_render hlaid p (List.mem_append_left _ hp)
      rw [Nat.sub_zero] at h1
      have h2 := hwhole p hp
      rw [← hG, List.drop_take]
      refine List.prefix_take_iff.mpr ⟨h1, ?_⟩
      rw [Placed.length_bytes]
      unfold Placed.finish at h2
      omega) (by
      intro b offset hoff hpos
      obtain ⟨r', hr, heof, hiff⟩ := stuck_take hoff (hm ▸ hpos) hafter (by omega) hlen hdrop
        (fun q hq => by have := hcut q hq; omega) (fun hnil => by
          rw [← hn₀, hnil, endOf_nil]
          exact Nat.min_eq_right hmn)
      exact ⟨_, .stops r' hr heof rfl, hiff⟩)
    exact ⟨r, hres, heof, hd.trans htorn⟩

/-- **Reading back a log.** The payloads written to an empty file, the file cut at any
    length or not at all: the reader returns exactly the payloads whose last physical
    record lies wholly within the bytes kept, in order, and then false, and false again. -/
theorem readLog_take_records (payloads : List Bytes) (n : ℕ) :
    (readLog ((writeLog payloads).dest.take n)).1 = keptPayloads payloads n ∧
      (readLog ((writeLog payloads).dest.take n)).2.readRecord =
        (none, (readLog ((writeLog payloads).dest.take n)).2) := by
  obtain ⟨r, hr, heof, -⟩ := readLog_take payloads n
  rw [hr]
  refine ⟨rfl, ?_⟩
  rw [LogReader.readRecord, heof, if_pos rfl]

/-- **A cut is not taken for damage** exactly if the torn record holds no chain of records
    that reaches the cut. -/
theorem damaged_take_iff (payloads : List Bytes) (n : ℕ) :
    (readLog ((writeLog payloads).dest.take n)).2.damaged = false ↔ ¬ TornImage payloads n := by
  obtain ⟨r, hr, -, hiff⟩ := readLog_take payloads n
  rw [hr, ← hiff, Bool.not_eq_true]

/-- A payload of eight bytes: an empty record as the writer writes it, and one more byte. -/
def recordInPayload : Bytes := physicalRecord .full [] ++ [0]

/-- Its log, cut before the last byte, is taken for damaged. -/
theorem damaged_recordInPayload :
    (readLog ((writeLog [recordInPayload]).dest.take 14)).2.damaged = true := by
  decide +kernel

end Ambar
