import Ambar.Table.Decode

/-!
# What the encoder touches

`compress_block` (`src/compress.cpp`, lines 109–188) reads its input through pointers and writes
through another into a string that it has made as long as `max_compressed_size` says; nothing is
checked. `encodeLoopAt` is the encoder once more with every access checked before it is made:
it has no value where a read falls outside the input, a slot outside the table, a write outside
the string, or where a sequence with another offset or match length than the format has is
emitted.

Results:
* `Encoder.Described.length_le`: each sequence is paid for by the bytes it stands for.
* `encodeStepAt_eq`, `encodeLoopAt_eq`: a turn of the loop, and the loop, make no access outside.
* `compressAt_eq`: the checked encoder writes what the encoder writes, on every input.
-/

namespace Ambar

open Lib (overwrite Copy Copies)

/-! ## The encoder with its accesses checked -/

/-- `hash4` of the four bytes at `p`. -/
def hash4At (input : Bytes) (p bits : ℕ) : Option ℕ :=
  (load input p 4).map fun word => hash4 word bits

/-- `memcmp` of `n` bytes at `p` and `q`: whether they are the same. -/
def sameAt (input : Bytes) (p q n : ℕ) : Option Bool :=
  (load input p n).bind fun a => (load input q n).map fun b => decide (a = b)

/-- The match grows by `step` bytes at a time (lines 161–168); at most `turns` turns. -/
def extendAt (input : Bytes) (matchPos pos step : ℕ) : (turns length : ℕ) → Option ℕ
  | 0, length => some length
  | turns + 1, length =>
    if pos + length + step ≤ input.length then
      (sameAt input (matchPos + length) (pos + length) step).bind fun same =>
        if same then extendAt input matchPos pos step turns (length + step) else some length
    else some length

/-- `emit_sequence` (lines 82–99) of literals of the input to the place `out` of the string: the
    string and the place after. A match is at least four bytes long and begins between 1 and
    65535 bytes back. -/
def emitAt (input buffer : Bytes) (out literalStart literalCount matchLength offset : ℕ) :
    Option (Bytes × ℕ) :=
  if matchLength = 0 ∨ kMinMatch ≤ matchLength ∧ 1 ≤ offset ∧ offset ≤ kMaxOffset then
    (load input literalStart literalCount).bind fun literals =>
      (store buffer out (emitSequence literals matchLength offset)).map fun buffer =>
        (buffer, out + (emitSequence literals matchLength offset).length)
  else none

/-- A slot of the table is written. -/
def putSlot (table : List ℕ) (slot value : ℕ) : Option (List ℕ) :=
  if slot < table.length then some (table.set slot value) else none

/-- The variables of the loop, with the whole string and the place `out` points to. -/
structure EncoderAt where
  literalStart : ℕ
  pos : ℕ
  table : List ℕ
  buffer : Bytes
  out : ℕ

/-- What follows a match (lines 170–180). -/
def afterMatchAt (input : Bytes) (bits lastHashable : ℕ) (e : EncoderAt) (table : List ℕ)
    (length offset : ℕ) : Option EncoderAt :=
  (emitAt input e.buffer e.out e.literalStart (e.pos - e.literalStart) length offset).bind
    fun written =>
      let pos := e.pos + length
      if 1 ≤ pos ∧ pos - 1 < lastHashable then
        (hash4At input (pos - 1) bits).bind fun h => (putSlot table h (pos % 2 ^ 32)).map fun table =>
          ⟨pos, pos, table, written.1, written.2⟩
      else some ⟨pos, pos, table, written.1, written.2⟩

/-- A turn of the loop (lines 140–181). -/
def encodeStepAt (input : Bytes) (bits lastHashable : ℕ) (e : EncoderAt) : Option EncoderAt :=
  (hash4At input e.pos bits).bind fun h => (e.table[h]?).bind fun candidate =>
    let table := e.table.set h ((e.pos + 1) % 2 ^ 32)
    if candidate = 0 then some { e with pos := e.pos + 1, table := table }
    else
      let matchPos := candidate - 1
      if kMaxOffset < e.pos - matchPos then some { e with pos := e.pos + 1, table := table }
      else
        (sameAt input matchPos e.pos kMinMatch).bind fun same =>
          if same = false then some { e with pos := e.pos + 1, table := table }
          else
            (extendAt input matchPos e.pos 8 input.length kMinMatch).bind fun length =>
              (extendAt input matchPos e.pos 1 input.length length).bind fun length =>
                afterMatchAt input bits lastHashable e table length (e.pos - matchPos)

/-- The loop (lines 140–181); at most `turns` turns. -/
def encodeLoopAt (input : Bytes) (bits lastHashable : ℕ) : (turns : ℕ) → EncoderAt → Option EncoderAt
  | 0, e => some e
  | turns + 1, e =>
    if e.pos < lastHashable then
      (encodeStepAt input bits lastHashable e).bind (encodeLoopAt input bits lastHashable turns)
    else some e

/-- The bytes `compress_block` leaves after the length (lines 118–187): the string is made as long
    as `max_compressed_size` says, and cut at the end. -/
def compressAt (input : Bytes) : Option Bytes :=
  let n := input.length
  let buffer := List.replicate (maxCompressedSize n) 0
  if n = 0 then (store buffer 0 [0]).map (List.take 1)
  else
    let bits := hashBitsFor n
    let lastHashable := if kMinMatch ≤ n then n - kMinMatch + 1 else 0
    (encodeLoopAt input bits lastHashable n ⟨0, 0, List.replicate (2 ^ bits) 0, buffer, 0⟩).bind
      fun e => (emitAt input e.buffer e.out e.literalStart (n - e.literalStart) 0 0).map
        fun written => written.1.take written.2

/-! ## Reading -/

section

variable {input : Bytes}

theorem hash4At_eq {p bits : ℕ} (h : p + 4 ≤ input.length) :
    hash4At input p bits = some (hash4 (input.drop p) bits) := by
  rw [hash4At, load_eq h, Option.map_some, hash4, hash4, List.take_take, Nat.min_self]

theorem sameAt_eq {p q n : ℕ} (hp : p + n ≤ input.length) (hq : q + n ≤ input.length) :
    sameAt input p q n = some (decide ((input.drop p).take n = (input.drop q).take n)) := by
  rw [sameAt, load_eq hp, load_eq hq]
  rfl

theorem extendAt_eight {matchPos pos : ℕ} (hle : matchPos ≤ pos) :
    ∀ {turns length : ℕ},
      extendAt input matchPos pos 8 turns length = some (extendByEight input matchPos pos turns length) := by
  intro turns
  induction turns with
  | zero => exact rfl
  | succ turns ih =>
    intro length
    rw [extendAt, extendByEight]
    by_cases hroom : pos + length + 8 ≤ input.length
    · rw [if_pos hroom, sameAt_eq (by omega) hroom, Option.bind_some]
      by_cases hsame : (input.drop (matchPos + length)).take 8 = (input.drop (pos + length)).take 8
      · rw [if_pos (decide_eq_true hsame), if_pos ⟨hroom, hsame⟩, ih]
      · rw [if_neg (by simpa using hsame), if_neg fun h => hsame h.2]
    · rw [if_neg hroom, if_neg fun h => hroom h.1]

/-- Two single bytes are the same where they are read as one each. -/
theorem take_one_eq_iff {i j : ℕ} (hi : i < input.length) (hj : j < input.length) :
    (input.drop i).take 1 = (input.drop j).take 1 ↔ input[i]? = input[j]? := by
  rw [List.take_one, List.take_one, List.head?_drop, List.head?_drop, List.getElem?_eq_getElem hi,
    List.getElem?_eq_getElem hj]
  simp

theorem extendAt_one {matchPos pos : ℕ} (hle : matchPos ≤ pos) :
    ∀ {turns length : ℕ},
      extendAt input matchPos pos 1 turns length = some (extendByOne input matchPos pos turns length) := by
  intro turns
  induction turns with
  | zero => exact rfl
  | succ turns ih =>
    intro length
    rw [extendAt, extendByOne]
    by_cases hroom : pos + length < input.length
    · rw [if_pos (by omega), sameAt_eq (by omega) (by omega), Option.bind_some]
      have hiff := take_one_eq_iff (show matchPos + length < input.length by omega) hroom
      by_cases hsame : input[matchPos + length]? = input[pos + length]?
      · rw [if_pos (decide_eq_true (hiff.mpr hsame)), if_pos ⟨hroom, hsame⟩, ih]
      · rw [if_neg (by simpa using hiff.not.mpr hsame), if_neg fun h => hsame h.2]
    · rw [if_neg (by omega), if_neg fun h => hroom h.1]

/-- A hash is a slot of a table of `2 ^ bits`. -/
theorem hash4_lt {p : Bytes} {bits : ℕ} (hbits : bits ≤ 32) : hash4 p bits < 2 ^ bits := by
  rw [hash4, Nat.shiftRight_eq_div_pow]
  apply Nat.div_lt_of_lt_mul
  rw [← pow_add, Nat.sub_add_cancel hbits]
  exact Nat.mod_lt _ (by positivity)

theorem hashBitsLoop_le (n : ℕ) : ∀ {turns bits : ℕ}, bits ≤ kMaxHashBits →
    hashBitsLoop n turns bits ≤ kMaxHashBits := by
  intro turns
  induction turns with
  | zero => exact id
  | succ turns ih =>
    intro bits hbits
    rw [hashBitsLoop]
    split_ifs with h
    · exact ih h.1
    · exact hbits

theorem hashBitsFor_le (n : ℕ) : hashBitsFor n ≤ 32 :=
  (hashBitsLoop_le n (by decide)).trans (by decide)

end

/-! ## Writing -/

/-- What the encoder has written describes its input as far as it has come. -/
def Encoder.Described (e : Encoder) (input : Bytes) : Prop :=
  ∃ cs, (∀ c ∈ cs, Encodable c) ∧ e.out = cs.flatMap emitCopy ∧ Copies input 0 cs e.literalStart

/-- **Each sequence is paid for** by the bytes it stands for and one more for every 255 of them. -/
theorem Encoder.Described.length_le {e : Encoder} {input : Bytes} (h : e.Described input) :
    e.out.length ≤ e.literalStart + e.literalStart / 255 := by
  obtain ⟨cs, hcs, hout, hcopies⟩ := h
  have hsize := (flatMap_emitCopy_bounds hcs).2
  have hstop := hcopies.stop_eq
  rw [hout]
  rw [Nat.zero_add] at hstop
  rwa [hstop]

theorem Encoder.Described.step {e : Encoder} {input : Bytes} {bits lastHashable : ℕ}
    (h : e.Described input) (hok : e.Ok input) (hpos : e.pos + kMinMatch ≤ input.length) :
    (encodeStep input bits lastHashable e).Described input := by
  obtain ⟨cs, hcs, hout, hcopies⟩ := h
  obtain ⟨-, -, ds, hds, hout', hcopies'⟩ := @encodeStep_spec input bits lastHashable e hok hpos
  refine ⟨cs ++ ds, fun c hc => ?_, ?_, hcopies.append hcopies'⟩
  · rcases List.mem_append.mp hc with hc | hc
    · exact hcs c hc
    · exact hds c hc
  · rw [hout', hout, List.flatMap_append]

/-- The checked encoder stands where the encoder does, and its string holds what that has
    written. -/
structure EncoderAt.Runs (c : EncoderAt) (e : Encoder) (room : ℕ) : Prop where
  literalStart : c.literalStart = e.literalStart
  pos : c.pos = e.pos
  table : c.table = e.table
  out : c.out = e.out.length
  written : c.buffer.take c.out = e.out
  length : c.buffer.length = room

/-- A sequence that the string has room for. -/
theorem emitAt_eq {input buffer out : Bytes} {room literalStart literalCount matchLength offset : ℕ}
    (hcheck : matchLength = 0 ∨ kMinMatch ≤ matchLength ∧ 1 ≤ offset ∧ offset ≤ kMaxOffset)
    (hliterals : literalStart + literalCount ≤ input.length)
    (hwritten : buffer.take out.length = out) (hlength : buffer.length = room)
    (hroom : (out ++ emitSequence ((input.drop literalStart).take literalCount) matchLength
      offset).length ≤ room) :
    ∃ buffer', emitAt input buffer out.length literalStart literalCount matchLength offset =
        some (buffer', (out ++ emitSequence ((input.drop literalStart).take literalCount) matchLength
          offset).length) ∧
      buffer'.take (out ++ emitSequence ((input.drop literalStart).take literalCount) matchLength
        offset).length =
        out ++ emitSequence ((input.drop literalStart).take literalCount) matchLength offset ∧
      buffer'.length = room := by
  generalize hbytes : emitSequence ((input.drop literalStart).take literalCount) matchLength offset =
    bytes at *
  rw [List.length_append] at hroom
  refine ⟨overwrite buffer out.length bytes, ?_, ?_, ?_⟩
  · rw [emitAt, if_pos hcheck, load_eq hliterals, Option.bind_some, hbytes, store_eq (by omega),
      Option.map_some, List.length_append]
  · rw [overwrite, hwritten, List.take_append_of_le_length (by rw [List.length_append])]
    exact List.take_length
  · rw [Lib.length_overwrite (by omega), hlength]

/-! ## The loop -/

section

variable {input : Bytes} {bits lastHashable : ℕ} {c : EncoderAt} {e : Encoder}

/-- **One turn makes no access outside**, and does what the encoder does. -/
theorem encodeStepAt_eq (hbits : bits ≤ 32) (hruns : c.Runs e (maxCompressedSize input.length))
    (hok : e.Ok input) (hdescribed : e.Described input) (htable : e.table.length = 2 ^ bits)
    (hlast : ∀ pos < lastHashable, pos + kMinMatch ≤ input.length)
    (hpos : e.pos + kMinMatch ≤ input.length) :
    ∃ c', encodeStepAt input bits lastHashable c = some c' ∧
      c'.Runs (encodeStep input bits lastHashable e) (maxCompressedSize input.length) ∧
      (encodeStep input bits lastHashable e).table.length = 2 ^ bits := by
  have hmin : kMinMatch = 4 := rfl
  have hdescribed' : (encodeStep input bits lastHashable e).Described input := hdescribed.step hok hpos
  obtain ⟨hok', -, -⟩ := @encodeStep_spec input bits lastHashable e hok hpos
  obtain ⟨hliteral, hposeq, htableeq, houteq, hwritten, hlength⟩ := hruns
  have hslot : hash4 (input.drop e.pos) bits < e.table.length := htable ▸ hash4_lt hbits
  have hget : e.table[hash4 (input.drop e.pos) bits]? =
      some (e.table.getD (hash4 (input.drop e.pos) bits) 0) := by
    rw [List.getD_eq_getElem?_getD, List.getElem?_eq_getElem hslot, Option.getD_some]
  have hmem : e.table.getD (hash4 (input.drop e.pos) bits) 0 ≤ e.pos :=
    hok.table _ (List.mem_of_getElem? hget)
  rw [encodeStepAt, hposeq, htableeq, hash4At_eq hpos, Option.bind_some, hget, Option.bind_some]
  unfold encodeStep at hdescribed' hok' ⊢
  simp only at hdescribed' hok' ⊢
  generalize e.table.getD (hash4 (input.drop e.pos) bits) 0 = candidate at *
  -- a byte is passed: nothing is written
  have hpass : ∀ table : List ℕ, table.length = 2 ^ bits →
      ∃ c', some { c with pos := e.pos + 1, table := table } = some c' ∧
        c'.Runs { e with pos := e.pos + 1, table := table } (maxCompressedSize input.length) ∧
        table.length = 2 ^ bits := fun table h =>
    ⟨_, rfl, ⟨hliteral, rfl, rfl, houteq, hwritten, hlength⟩, h⟩
  have hset : (e.table.set (hash4 (input.drop e.pos) bits) ((e.pos + 1) % 2 ^ 32)).length = 2 ^ bits := by
    rw [List.length_set, htable]
  by_cases hcand : candidate = 0
  · rw [if_pos hcand, if_pos hcand]
    exact hpass _ hset
  rw [if_neg hcand] at hdescribed' hok'
  rw [if_neg hcand, if_neg hcand]
  by_cases hfar : kMaxOffset < e.pos - (candidate - 1)
  · rw [if_pos hfar, if_pos (Or.inl hfar)]
    exact hpass _ hset
  rw [if_neg hfar, sameAt_eq (by omega) hpos, Option.bind_some]
  by_cases hsame : (input.drop (candidate - 1)).take kMinMatch = (input.drop e.pos).take kMinMatch
  swap
  · rw [if_pos (decide_eq_false hsame), if_pos (Or.inr hsame)]
    exact hpass _ hset
  have hno : ¬ (kMaxOffset < e.pos - (candidate - 1) ∨
      (input.drop (candidate - 1)).take kMinMatch ≠ (input.drop e.pos).take kMinMatch) :=
    fun h => h.elim hfar fun h => h hsame
  rw [if_neg hno] at hdescribed' hok'
  rw [if_neg (by simp [hsame]), if_neg hno, extendAt_eight (by omega), Option.bind_some,
    extendAt_one (by omega), Option.bind_some]
  change ∃ c', afterMatchAt input bits lastHashable c _ (matchLength input (candidate - 1) e.pos) _ =
    some c' ∧ _
  obtain ⟨-, hinside, hfour⟩ := matchLength_spec (by omega : candidate - 1 ≤ e.pos) hpos hsame
  generalize matchLength input (candidate - 1) e.pos = length at *
  -- the sequence fits: what is written describes the input up to here
  have hroom := hdescribed'.length_le
  simp only at hroom
  have hfits : e.pos + length + (e.pos + length) / 255 ≤ maxCompressedSize input.length := by
    unfold maxCompressedSize
    omega
  obtain ⟨buffer', hemit, hwritten', hlength'⟩ := @emitAt_eq input c.buffer e.out
    (maxCompressedSize input.length) e.literalStart (e.pos - e.literalStart) length
    (e.pos - (candidate - 1)) (Or.inr ⟨hfour, by omega, by omega⟩)
    (by have := hok.literals; omega) (houteq ▸ hwritten) hlength (hroom.trans hfits)
  rw [afterMatchAt, hliteral, hposeq, houteq, hemit, Option.bind_some]
  simp only
  by_cases hwarm : 1 ≤ e.pos + length ∧ e.pos + length - 1 < lastHashable
  · rw [if_pos hwarm, if_pos hwarm, hash4At_eq (hlast _ hwarm.2), Option.bind_some, putSlot,
      if_pos (hset ▸ hash4_lt hbits), Option.map_some]
    refine ⟨_, rfl, ⟨rfl, rfl, rfl, rfl, hwritten', hlength'⟩, ?_⟩
    rw [List.length_set, hset]
  · rw [if_neg hwarm, if_neg hwarm]
    exact ⟨_, rfl, ⟨rfl, rfl, rfl, rfl, hwritten', hlength'⟩, hset⟩

/-- **The loop makes no access outside.** -/
theorem encodeLoopAt_eq (hbits : bits ≤ 32)
    (hlast : ∀ pos < lastHashable, pos + kMinMatch ≤ input.length) :
    ∀ {turns : ℕ} {c : EncoderAt} {e : Encoder}, c.Runs e (maxCompressedSize input.length) →
      e.Ok input → e.Described input → e.table.length = 2 ^ bits →
      ∃ c', encodeLoopAt input bits lastHashable turns c = some c' ∧
        c'.Runs (encodeLoop input bits lastHashable turns e) (maxCompressedSize input.length) := by
  intro turns
  induction turns with
  | zero => exact fun hruns _ _ _ => ⟨_, rfl, hruns⟩
  | succ turns ih =>
    intro c e hruns hok hdescribed htable
    rw [encodeLoopAt, encodeLoop, hruns.pos]
    by_cases hpos : e.pos < lastHashable
    · rw [if_pos hpos, if_pos hpos]
      obtain ⟨c', hstep, hruns', htable'⟩ :=
        encodeStepAt_eq hbits hruns hok hdescribed htable hlast (hlast _ hpos)
      rw [hstep, Option.bind_some]
      exact ih hruns' (encodeStep_spec hok (hlast _ hpos)).1 (hdescribed.step hok (hlast _ hpos)) htable'
    · rw [if_neg hpos, if_neg hpos]
      exact ⟨c, rfl, hruns⟩

end

/-- **The encoder touches nothing outside.** On every input the checked encoder has a value, the
    bytes `compress_block` writes: every hash and comparison reads inside the input, every match
    it emits is at least four bytes long with an offset between 1 and 65535, and every write is
    within `max_compressed_size`. -/
theorem compressAt_eq (input : Bytes) :
    compressAt input = some (compressBody input) ∧
      (compressBody input).length ≤ maxCompressedSize input.length := by
  refine ⟨?_, length_compressBody_le input⟩
  rw [compressAt, compressBody]
  simp only
  by_cases hn : input.length = 0
  · rw [if_pos hn, if_pos hn, hn]
    rfl
  rw [if_neg hn, if_neg hn]
  have hlast : ∀ pos < (if kMinMatch ≤ input.length then input.length - kMinMatch + 1 else 0),
      pos + kMinMatch ≤ input.length := by
    intro pos hpos
    split_ifs at hpos <;> omega
  have hok : Encoder.Ok ⟨0, 0, List.replicate (2 ^ hashBitsFor input.length) 0, []⟩ input :=
    ⟨le_rfl, Nat.zero_le _, fun t ht => (List.eq_of_mem_replicate ht).le⟩
  obtain ⟨c, hloop, hruns⟩ := @encodeLoopAt_eq input _ _ (hashBitsFor_le input.length) hlast input.length
    ⟨0, 0, List.replicate (2 ^ hashBitsFor input.length) 0,
      List.replicate (maxCompressedSize input.length) 0, 0⟩
    ⟨0, 0, List.replicate (2 ^ hashBitsFor input.length) 0, []⟩
    ⟨rfl, rfl, rfl, rfl, rfl, List.length_replicate⟩ hok ⟨[], by simp, rfl, .nil 0⟩
    List.length_replicate
  have hok' := (@encodeLoop_copies input (hashBitsFor input.length) _ hlast input.length _ hok).1
  have hbody := length_compressBody_le input
  rw [compressBody] at hbody
  simp only [if_neg hn] at hbody
  rw [hloop, Option.bind_some, hruns.literalStart, hruns.out]
  generalize encodeLoop input (hashBitsFor input.length) _ input.length _ = e at *
  have hdrop : (input.drop e.literalStart).take (input.length - e.literalStart) =
      input.drop e.literalStart := List.take_of_length_le (by rw [List.length_drop])
  obtain ⟨buffer', hemit, hwritten, -⟩ := @emitAt_eq input c.buffer e.out
    (maxCompressedSize input.length) e.literalStart (input.length - e.literalStart) 0 0 (Or.inl rfl)
    (by have := hok'.literals; have := hok'.pos; omega) (hruns.out ▸ hruns.written) hruns.length
    (by rw [hdrop]; exact hbody)
  rw [hemit, Option.map_some, hwritten, hdrop]

end Ambar
