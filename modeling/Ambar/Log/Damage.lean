import Ambar.Log.Tail

/-!
# Logs with one byte altered

A byte of a physical record that is not the last one of its file changes, and the
record no longer verifies. The checksum does not cover the length, so the reader may
believe any length. It stops at the record and finds a later one whatever the length:
in the same block the search by bytes comes to the next record, from which intact
records run to the end of the block; otherwise the next block starts with a record.

* `intactChain_take_render`: the records of a block run to its end.
* `readableRecordFollows_of_next`: the search finds the next record.
* `readLog_set`: what a reader makes of such a log.
-/

namespace Ambar

/-- The record at `start` verifies, within its block, at the length its header claims. -/
def recordVerifies (file : Bytes) (start : ℕ) : Bool :=
  let block := (file.drop (start / kBlockSize * kBlockSize)).take kBlockSize
  let rest := block.drop (start % kBlockSize)
  decide (kHeaderSize + (parseHeader rest).length ≤ rest.length) && verifies rest (parseHeader rest)

/-! ## The search -/

theorem Placed.length_lt {p : Placed}
    (hfit : p.start % kBlockSize + kHeaderSize + p.data.length ≤ kBlockSize) :
    p.data.length < 65536 := by
  unfold kBlockSize at hfit
  omega

/-- The records of a block, from one of them on, run to the end of the block. -/
theorem intactChain_take_render {qs : List Placed} :
    ∀ {pos : ℕ} {q : Placed}, Laid pos (q :: qs) → q.start = pos →
      IntactChain ((render pos (q :: qs)).take (kBlockSize - pos % kBlockSize)) := by
  induction qs with
  | nil =>
    intro pos q hlaid hq
    obtain ⟨hstart, hfit, htype, -⟩ := hlaid
    refine ⟨[(q.type, q.data)], by simp, by simpa using ⟨htype, Placed.length_lt hfit⟩, 0, ?_⟩
    have hpad : padding pos = 0 := by omega
    rw [render, render, hpad, List.take_of_length_le]
    · simp [Placed.bytes]
    · simp only [List.replicate_zero, List.nil_append, List.append_nil, Placed.length_bytes]
      rw [hq] at hfit
      omega
  | cons q' qs ih =>
    intro pos q hlaid hq
    obtain ⟨hstart, hfit, htype, hrest⟩ := hlaid
    have hpad : padding pos = 0 := by omega
    rw [hq] at hfit
    rw [render, hpad, List.replicate_zero, List.nil_append, List.take_append,
      List.take_of_length_le (by rw [Placed.length_bytes]; omega), Placed.length_bytes]
    have hd : q.data.length < 65536 := by
      unfold kBlockSize at hfit
      omega
    have hfinish : q.finish = pos + kHeaderSize + q.data.length := by rw [Placed.finish, hq]
    by_cases hsame : padding q.finish = 0 ∧ q.finish % kBlockSize ≠ 0
    · -- one more record in the block
      have hstart' := hrest.1
      have hroom : kBlockSize - pos % kBlockSize - (kHeaderSize + q.data.length) =
          kBlockSize - q.finish % kBlockSize := by
        rw [hfinish] at hsame ⊢
        unfold kBlockSize kHeaderSize at *
        omega
      obtain ⟨fs, -, hfs, k, hk⟩ := ih hrest (by omega)
      refine ⟨(q.type, q.data) :: fs, by simp, fun f hf => ?_, k, ?_⟩
      · rcases List.mem_cons.mp hf with rfl | hf
        · exact ⟨htype, hd⟩
        · exact hfs f hf
      · rw [hroom, hk, List.flatMap_cons, List.append_assoc]
        rfl
    · -- the rest of the block is padding
      refine ⟨[(q.type, q.data)], by simp, by simpa using ⟨htype, hd⟩,
        kBlockSize - pos % kBlockSize - (kHeaderSize + q.data.length), ?_⟩
      have hle : kBlockSize - pos % kBlockSize - (kHeaderSize + q.data.length) ≤
          padding q.finish := by
        rw [hfinish] at hsame ⊢
        unfold padding at *
        unfold kBlockSize kHeaderSize at *
        split_ifs at hsame ⊢ <;> omega
      rw [render, List.append_assoc, List.take_append_of_le_length (by simpa using hle),
        List.take_replicate, Nat.min_eq_left hle]
      simp [Placed.bytes]

/-- A block that starts with a record is accepted by the walk. -/
theorem walk_physicalRecord {type : RecordType} {data : Bytes} (rest : Bytes) (turns : ℕ)
    (hd : data.length < 65536) (htype : type ≠ .zero) :
    walk (turns + 1) (physicalRecord type data ++ rest) = true := by
  have hheader := @parseHeader_physicalRecord type data rest hd
  have hlen : (physicalRecord type data ++ rest).length = kHeaderSize + data.length + rest.length := by
    rw [List.length_append, length_physicalRecord]
  rw [walk, if_pos (by omega)]
  simp only
  rw [not_isZeroed_physicalRecord rest hd htype, if_neg Bool.false_ne_true,
    if_neg (by rw [hheader, hlen]; simp only; omega),
    if_pos (verifies_physicalRecord rest hd htype)]

/-- **The search finds the next record**, wherever the failed one leads it: an intact
    chain past the failed header, or a record at the start of the next block. -/
theorem readableRecordFollows_of_next {block source : Bytes} {offset resume scanFrom : ℕ}
    (hscan : scanFrom ≤ offset + 1)
    (hnext : (∃ at_, offset < at_ ∧ IntactChain (block.drop at_)) ∨
      ¬ block.length < kBlockSize ∧ ∃ type data rest, type ≠ .zero ∧ data.length < 65536 ∧
        source.take kBlockSize = physicalRecord type data ++ rest) :
    readableRecordFollows (source.length + 1) block source resume scanFrom = true := by
  have hbytes : (∃ at_, offset < at_ ∧ IntactChain (block.drop at_)) → scan block scanFrom = true := by
    rintro ⟨at_, hat, hchain⟩
    exact scan_iff.mpr ⟨at_, by omega, hchain⟩
  rw [readableRecordFollows]
  rcases hnext with hchain | ⟨hfull, type, data, rest, htype, hd, heq⟩
  · rw [if_pos (hbytes hchain), ite_self]
  · have hlen := congrArg List.length heq
    rw [List.length_take, List.length_append, length_physicalRecord] at hlen
    unfold kHeaderSize at hlen
    obtain ⟨turns, hturns⟩ : ∃ turns, source.length = turns + 1 := ⟨source.length - 1, by omega⟩
    have hne : source.take kBlockSize ≠ [] := by
      rw [Ne, ← List.length_eq_zero_iff, List.length_take]
      omega
    rw [if_neg hfull, if_neg hne, hturns, readableRecordFollows, List.drop_zero, heq,
      walk_physicalRecord rest _ hd htype, if_pos rfl, ite_self, ite_self]

/-! ## The altered record -/

/-- **A record that does not verify**: the reader is stuck there, and the stop is damage
    where every search from the record on finds one. -/
theorem stuck_of_not_verifies {r₀ r : LogReader} (hhere : r₀.readPhysicalRecord = r.readHere)
    (hlen : r.blockOffset + kHeaderSize ≤ r.block.length)
    (hver : ∀ p, p = r.block.drop r.blockOffset →
      ¬ (kHeaderSize + (parseHeader p).length ≤ p.length ∧ verifies p (parseHeader p) = true))
    (hfollows : ∀ resume scanFrom, scanFrom ≤ r.blockOffset + 1 →
      readableRecordFollows (r.source.length + 1) r.block r.source resume scanFrom = true) :
    Stuck r₀ true := by
  have hstop : ∀ reason resume, (r.stop reason resume).damaged = true := by
    intro reason resume
    refine hfollows resume _ ?_
    split_ifs <;> omega
  unfold LogReader.readHere at hhere
  rw [if_neg (by omega)] at hhere
  simp only at hhere
  generalize hp : r.block.drop r.blockOffset = p at hhere
  have hplen : p.length = r.block.length - r.blockOffset := by rw [← hp, List.length_drop]
  split_ifs at hhere with hzero hpast hcrc
  · exact .stops _ hhere rfl (hstop _ _)
  · exact .stops _ hhere rfl (hstop _ _)
  · exact .stops _ hhere rfl (hstop _ _)
  · -- the checksum agrees, so the type is none of the known ones
    have htype : knownType (parseHeader p).type = false := by
      have := hver p hp.symm
      rw [verifies, decide_eq_true (not_not.mp hcrc), Bool.true_and] at this
      exact Bool.eq_false_iff.mpr fun h => this ⟨by omega, h⟩
    refine .unknown _ _ _ hhere htype fun reason => hfollows _ _ ?_
    have hfrag : ((p.drop kHeaderSize).take (parseHeader p).length).length = (parseHeader p).length := by
      rw [List.length_take, List.length_drop]
      omega
    simp only [hfrag]
    split_ifs <;> omega

/-- What follows a record that is not the last of its log. -/
theorem next_of_laid {file : Bytes} {p q : Placed} {qs : List Placed}
    (hfit : p.start % kBlockSize + kHeaderSize + p.data.length ≤ kBlockSize)
    (hlaid : Laid p.finish (q :: qs)) (hafter : file.drop p.finish = render p.finish (q :: qs)) :
    let r := readerAt file (p.start / kBlockSize) (p.start % kBlockSize)
    (∃ at_, r.blockOffset < at_ ∧ IntactChain (r.block.drop at_)) ∨
      ¬ r.block.length < kBlockSize ∧ ∃ type data rest, type ≠ .zero ∧ data.length < 65536 ∧
        r.source.take kBlockSize = physicalRecord type data ++ rest := by
  intro r
  have hfinish : p.finish = p.start / kBlockSize * kBlockSize +
      (p.start % kBlockSize + kHeaderSize + p.data.length) := by
    have := Nat.div_add_mod' p.start kBlockSize
    unfold Placed.finish
    omega
  by_cases hsame : padding p.finish = 0 ∧ p.finish % kBlockSize ≠ 0
  · -- the next record stands in the same block
    refine Or.inl ⟨p.start % kBlockSize + kHeaderSize + p.data.length, ?_, ?_⟩
    · show p.start % kBlockSize < _
      unfold kHeaderSize
      omega
    · have hroom : kBlockSize - (p.start % kBlockSize + kHeaderSize + p.data.length) =
          kBlockSize - p.finish % kBlockSize := by
        rw [hfinish, Nat.mul_add_mod'] at hsame ⊢
        rcases Nat.lt_or_eq_of_le hfit with hlt | heq
        · rw [Nat.mod_eq_of_lt hlt]
        · rw [heq, Nat.mod_self] at hsame
          exact absurd rfl hsame.2
      rw [block_drop, ← hfinish, hafter, hroom]
      exact intactChain_take_render hlaid (by have := hlaid.1; omega)
  · -- it starts the next block
    obtain ⟨hstart, hfit', htype, -⟩ := hlaid
    have hnext : p.finish + padding p.finish = (p.start / kBlockSize + 1) * kBlockSize := by
      rw [Nat.succ_mul]
      unfold padding at *
      unfold kBlockSize kHeaderSize at *
      split_ifs at hsame ⊢ <;> omega
    have hdrop : file.drop ((p.start / kBlockSize + 1) * kBlockSize) =
        q.bytes ++ render q.finish qs := by
      rw [← hnext, ← List.drop_drop, hafter, render, List.append_assoc,
        List.drop_left' (List.length_replicate ..)]
    have hlen := congrArg List.length hdrop
    rw [List.length_drop, List.length_append, Placed.length_bytes] at hlen
    refine Or.inr ⟨?_, q.type, q.data,
      (render q.finish qs).take (kBlockSize - (kHeaderSize + q.data.length)), htype,
      Placed.length_lt hfit', ?_⟩
    · rw [length_block]
      rw [Nat.succ_mul] at hlen
      unfold kHeaderSize at hlen
      omega
    · show (file.drop ((p.start / kBlockSize + 1) * kBlockSize)).take kBlockSize = _
      rw [hdrop, List.take_append, Placed.length_bytes,
        List.take_of_length_le (by rw [Placed.length_bytes]; omega)]
      rfl

/-! ## Reading a log with an altered byte -/

/-- The records of a log around one that is not the last. -/
theorem exists_kept_before {payloads : List Bytes} {p : Placed}
    (hp : p ∈ (writeLog payloads).emitted) (hlast : (writeLog payloads).emitted.getLast? ≠ some p) :
    ∃ (kept : List (List Placed)) (rest : List Placed) (q : Placed) (qs : List Placed),
      List.Forall₂ Fragmented (keptPayloads payloads p.start) kept ∧
      (writeLog payloads).emitted = kept.flatten ++ rest ++ p :: q :: qs ∧
      Laid 0 (kept.flatten ++ rest ++ p :: q :: qs) ∧
      (writeLog payloads).dest = render 0 (kept.flatten ++ rest ++ p :: q :: qs) ∧
      (rest = [] ∨ ∃ payload qs', qs' ≠ [] ∧ Fragmented payload (rest ++ qs')) := by
  obtain ⟨groups, hall, hemitted, hlaid, hdest, hends⟩ := writeLog_spec payloads
  obtain ⟨kept, rest, qs, hkept, hsplit, hwhole, hcut, hrest⟩ :=
    exists_kept hall hlaid (Nat.zero_le p.start)
  rw [← hends] at hkept
  change List.Forall₂ Fragmented (keptPayloads payloads p.start) kept at hkept
  rw [hemitted] at hp hlast
  rw [hsplit] at hlaid hp hlast hdest hemitted
  have hmem : p ∈ qs := by
    rcases List.mem_append.mp hp with hp | hp
    · have := hwhole p hp
      unfold Placed.finish kHeaderSize at this
      omega
    · exact hp
  obtain ⟨-, hafter⟩ := laid_append.mp hlaid
  match qs, hmem, hafter with
  | q :: qs, hmem, hafter =>
    rcases List.mem_cons.mp hmem with rfl | hmem
    · cases qs with
      | nil => simp at hlast
      | cons q qs => exact ⟨kept, rest, q, qs, hkept, hemitted, hlaid, hdest, hrest⟩
    · have h1 := le_start hafter.2.2.2 p hmem
      have h2 := hcut q rfl
      omega

/-- **A byte of a log altered**, in a record that is not the last: the reader returns the
    payloads that end before the record, and calls the log damaged. -/
theorem readLog_set {payloads : List Bytes} {p : Placed} (hp : p ∈ (writeLog payloads).emitted)
    (hlast : (writeLog payloads).emitted.getLast? ≠ some p) {i : ℕ} (hi : p.start ≤ i)
    (hi' : i < p.finish) (c : UInt8)
    (hver : recordVerifies ((writeLog payloads).dest.set i c) p.start = false) :
    (readLog ((writeLog payloads).dest.set i c)).1 = keptPayloads payloads p.start ∧
      (readLog ((writeLog payloads).dest.set i c)).2.damaged = true := by
  obtain ⟨kept, rest, q, qs, hkept, -, hlaid, hdest, hrest⟩ := exists_kept_before hp hlast
  rw [hdest] at hver ⊢
  obtain ⟨hbefore, hstart, hfit, htype, hnext⟩ := laid_append.mp hlaid
  generalize hfile : (render 0 (kept.flatten ++ rest ++ p :: q :: qs)).set i c = file at hver ⊢
  -- the records before the altered one are as written, and so is what follows it
  have hpref : ∀ p' ∈ kept.flatten ++ rest, p'.bytes <+: file.drop p'.start := by
    intro p' hp'
    obtain ⟨t, ht⟩ := bytes_prefix_render hlaid p' (List.mem_append_left _ hp')
    rw [Nat.sub_zero] at ht
    have hle := finish_le hbefore p' hp'
    unfold Placed.finish at hle
    rw [← hfile, List.drop_set, if_neg (by omega), ← ht,
      List.set_append_right _ _ (by rw [Placed.length_bytes]; omega)]
    exact List.prefix_append _ _
  have hafter : file.drop p.finish = render p.finish (q :: qs) := by
    rw [← hfile, List.drop_set_of_lt hi', List.append_cons, render_append, endOf_append, endOf_cons,
      endOf_nil]
    refine List.drop_left' ?_
    have := length_render (laid_append.mp (List.append_cons _ _ _ ▸ hlaid)).1
    rwa [endOf_append, endOf_cons, endOf_nil, Nat.zero_add] at this
  have hlen : p.finish < file.length := by
    have := congrArg List.length hafter
    rw [List.length_drop, render, List.length_append, List.length_append, Placed.length_bytes] at this
    unfold kHeaderSize at this
    omega
  have hne : file ≠ [] := by
    rintro rfl
    exact absurd hlen (Nat.not_lt_zero _)
  have hstuck : ∀ b offset, offset ≤ kBlockSize →
      endOf 0 (kept.flatten ++ rest) = b * kBlockSize + offset →
      Stuck (readerAt file b offset) true := by
    intro b offset hoff hpos
    refine stuck_of_not_verifies (readPhysicalRecord_start hoff hpos hstart ?_) ?_ ?_
      fun resume scanFrom hscan => readableRecordFollows_of_next hscan (next_of_laid hfit hnext hafter)
    · unfold Placed.finish at hlen
      omega
    · show p.start % kBlockSize + kHeaderSize ≤ _
      rw [length_block]
      have := Nat.div_add_mod' p.start kBlockSize
      unfold Placed.finish at hlen
      omega
    · rintro _ rfl ⟨h1, h2⟩
      rw [recordVerifies, Bool.and_eq_false_iff, decide_eq_false_iff_not] at hver
      rcases hver with hver | hver
      · exact hver h1
      · exact Bool.false_ne_true (hver.symm.trans h2)
  obtain ⟨r, hres, -, hd⟩ := @readLog_of_stuck file _ kept rest (· = true) hne hkept hrest hbefore hpref
    fun b offset hoff hpos => ⟨true, hstuck b offset hoff hpos, rfl⟩
  rw [hres]
  exact ⟨rfl, hd⟩

/-- Three records, the data byte of the second altered. -/
theorem readLog_set_second :
    (readLog ((writeLog [[1], [2], [3]]).dest.set 15 9)).1 = keptPayloads [[1], [2], [3]] 8 ∧
      (readLog ((writeLog [[1], [2], [3]]).dest.set 15 9)).2.damaged = true :=
  @readLog_set [[1], [2], [3]] ⟨8, .full, [2]⟩ (by decide +kernel) (by decide +kernel) 15
    (by decide) (by decide) 9 (by decide +kernel)

end Ambar
