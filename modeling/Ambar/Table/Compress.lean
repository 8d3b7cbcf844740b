import Ambar.Format.Encoding
import Ambar.Lib.Copies

/-!
# Compressed blocks

`compress_block` and `decompress_block` (`src/compress.cpp`): sequences of literals and
copies, each length a nibble of a token and bytes that continue it. The encoder finds
its copies through a hash table of positions; whatever the table gives it, a copy is
emitted only after the bytes were compared.

The decoder writes into a buffer of the declared size. `wild_copy` writes whole steps of
eight bytes and so past the end of what it copies; the bytes past it are overwritten by
what follows.

* `encodeLoop_copies`: the sequences of the encoder describe its input.
* `length_compressBody_le`: the encoder stays within the room it makes for its output.
* `decompressLoop_copies`: the decoder writes the text that sequences describe.
* `decompress_compress`: decompression gives the input back.
-/

namespace Ambar

open Lib (overwrite Agree agree_overwrite Repeats copySteps copyEach Copy Copies)

def kMinMatch : ℕ := 4
def kMaxOffset : ℕ := 65535
def kMinHashBits : ℕ := 8
def kMaxHashBits : ℕ := 14
def kWildCopyStep : ℕ := 8

/-! ## The encoder -/

/-- The loop of `hash_bits_for` (line 28); at most `turns` turns. -/
def hashBitsLoop (n : ℕ) : (turns bits : ℕ) → ℕ
  | 0, bits => bits
  | turns + 1, bits =>
    if bits < kMaxHashBits ∧ 2 ^ bits < n then hashBitsLoop n turns (bits + 1) else bits

/-- `hash_bits_for` (lines 26–30). -/
def hashBitsFor (n : ℕ) : ℕ := hashBitsLoop n (kMaxHashBits - kMinHashBits) kMinHashBits

/-- `hash4` (lines 34–38); the word as a little-endian machine loads it. -/
def hash4 (p : Bytes) (bits : ℕ) : ℕ :=
  (decodeFixed (p.take 4) * 2654435761 % 2 ^ 32) >>> (32 - bits)

/-- `put_length` (lines 47–54). -/
def putLength (length : ℕ) : Bytes :=
  if 255 ≤ length then 255 :: putLength (length - 255) else [UInt8.ofNat length]
termination_by length

/-- `nibble_of` (lines 57–59). -/
def nibbleOf (length : ℕ) : ℕ := if 15 ≤ length then 15 else length

/-- The bytes that continue a nibble (lines 91, 97). -/
def continued (length : ℕ) : Bytes := if 15 ≤ length then putLength (length - 15) else []

/-- `emit_sequence` (lines 82–99): the bytes it writes. -/
def emitSequence (literals : Bytes) (matchLength offset : ℕ) : Bytes :=
  let matchCode := if matchLength = 0 then 0 else matchLength - kMinMatch
  let token := nibbleOf literals.length <<< 4 ||| if matchLength = 0 then 0 else nibbleOf matchCode
  [UInt8.ofNat token] ++ continued literals.length ++ literals ++
    if matchLength = 0 then []
    else [UInt8.ofNat (offset % 256), UInt8.ofNat (offset / 256 % 256)] ++ continued matchCode

/-- `max_compressed_size` (lines 103–107). -/
def maxCompressedSize (n : ℕ) : ℕ := 5 + 1 + n / 255 + 1 + n

/-- The match grows by eight bytes (lines 162–165); at most `turns` turns. -/
def extendByEight (base : Bytes) (matchPos pos : ℕ) : (turns length : ℕ) → ℕ
  | 0, length => length
  | turns + 1, length =>
    if pos + length + 8 ≤ base.length ∧
        (base.drop (matchPos + length)).take 8 = (base.drop (pos + length)).take 8 then
      extendByEight base matchPos pos turns (length + 8)
    else length

/-- The match grows by one byte (lines 166–168); at most `turns` turns. -/
def extendByOne (base : Bytes) (matchPos pos : ℕ) : (turns length : ℕ) → ℕ
  | 0, length => length
  | turns + 1, length =>
    if pos + length < base.length ∧ base[matchPos + length]? = base[pos + length]? then
      extendByOne base matchPos pos turns (length + 1)
    else length

/-- The length of a match (lines 161–168). -/
def matchLength (base : Bytes) (matchPos pos : ℕ) : ℕ :=
  extendByOne base matchPos pos base.length
    (extendByEight base matchPos pos base.length kMinMatch)

/-- The variables of `compress_block`'s loop; `table` holds positions plus one. -/
structure Encoder where
  literalStart : ℕ
  pos : ℕ
  table : List ℕ
  out : Bytes

/-- A turn of the loop (lines 140–181). -/
def encodeStep (base : Bytes) (bits lastHashable : ℕ) (e : Encoder) : Encoder :=
  let h := hash4 (base.drop e.pos) bits
  let candidate := e.table.getD h 0
  let table := e.table.set h ((e.pos + 1) % 2 ^ 32)
  if candidate = 0 then { e with pos := e.pos + 1, table := table }
  else
    let matchPos := candidate - 1
    let offset := e.pos - matchPos
    if kMaxOffset < offset ∨
        (base.drop matchPos).take kMinMatch ≠ (base.drop e.pos).take kMinMatch then
      { e with pos := e.pos + 1, table := table }
    else
      let length := matchLength base matchPos e.pos
      let pos := e.pos + length
      { literalStart := pos
        pos := pos
        table := if 1 ≤ pos ∧ pos - 1 < lastHashable then
          table.set (hash4 (base.drop (pos - 1)) bits) (pos % 2 ^ 32) else table
        out := e.out ++
          emitSequence ((base.drop e.literalStart).take (e.pos - e.literalStart)) length offset }

/-- The loop (lines 140–181); at most `turns` turns. -/
def encodeLoop (base : Bytes) (bits lastHashable : ℕ) : (turns : ℕ) → Encoder → Encoder
  | 0, e => e
  | turns + 1, e =>
    if e.pos < lastHashable then
      encodeLoop base bits lastHashable turns (encodeStep base bits lastHashable e)
    else e

/-- The bytes `compress_block` writes after the length (lines 120–187). -/
def compressBody (input : Bytes) : Bytes :=
  let n := input.length
  if n = 0 then [0]
  else
    let bits := hashBitsFor n
    let lastHashable := if kMinMatch ≤ n then n - kMinMatch + 1 else 0
    let e := encodeLoop input bits lastHashable n ⟨0, 0, List.replicate (2 ^ bits) 0, []⟩
    e.out ++ emitSequence (input.drop e.literalStart) 0 0

/-- `compress_block` (lines 109–188). -/
def compressBlock (input output : Bytes) : Bytes :=
  output ++ putVarint (input.length % 2 ^ 32) ++ compressBody input

/-! ## The decoder -/

/-- `compressed_length` (lines 190–211): the length and the body. -/
def compressedLength (input : Bytes) : Except Status (ℕ × Bytes) :=
  match getVarint32 input with
  | none => .error (.corruption "compressed block has no length")
  | some (declared, input) =>
    if 255 * input.length < declared then
      .error (.corruption "compressed block declares more than its bytes could deliver")
    else .ok (declared, input)

/-- `read_extra` (lines 240–248): the length and the input after it. -/
def readExtra (room : ℕ) : (length : ℕ) → (p : Bytes) → Option (ℕ × Bytes)
  | _, [] => none
  | length, byte :: p =>
    let length := length + byte.toNat
    if room < length then none
    else if byte ≠ 255 then some (length, p)
    else readExtra room length p

/-- A length, continued if its nibble is 15 (lines 257–261, 302–306). -/
def readLength (room nibble least : ℕ) (p : Bytes) : Option (ℕ × Bytes) :=
  if nibble = 15 then readExtra room (nibble + least) p else some (nibble + least, p)

/-- The literals into the buffer (lines 271–276). -/
def copyLiterals (p out : Bytes) (produced literalCount : ℕ) : Bytes :=
  if literalCount + kWildCopyStep ≤ p.length ∧
      literalCount + kWildCopyStep ≤ out.length - produced then
    copySteps kWildCopyStep (fun _ done => (p.drop done).take kWildCopyStep) produced literalCount
      (literalCount + 1) 0 out
  else overwrite out produced (p.take literalCount)

/-- The match into the buffer (lines 319–327). -/
def copyMatch (out : Bytes) (produced offset matchLength : ℕ) : Bytes :=
  if kWildCopyStep ≤ offset ∧ matchLength + kWildCopyStep ≤ out.length - produced then
    copySteps kWildCopyStep (fun out done => (out.drop (produced - offset + done)).take kWildCopyStep)
      produced matchLength (matchLength + 1) 0 out
  else if matchLength ≤ offset then
    overwrite out produced ((out.drop (produced - offset)).take matchLength)
  else copyEach 0 produced offset matchLength out

/-- `decompress_into` (lines 225–330) on what is left of the input; `out` has the length
    `total`. At most `turns` turns, each of which reads a token. -/
def decompressLoop : (turns : ℕ) → (p out : Bytes) → (produced : ℕ) → Except Status Bytes
  | 0, _, _, _ => .error (.corruption "compressed block ends before its last token")
  | _ + 1, [], _, _ => .error (.corruption "compressed block ends before its last token")
  | turns + 1, token :: p, out, produced =>
    let room := out.length - produced
    match readLength room (token.toNat >>> 4) 0 p with
    | none => .error (.corruption "literal length overruns the block")
    | some (literalCount, p) =>
      if room < literalCount then .error (.corruption "literals overrun the declared size")
      else if p.length < literalCount then
        .error (.corruption "literals overrun the compressed input")
      else
        let out := copyLiterals p out produced literalCount
        let produced := produced + literalCount
        match p.drop literalCount with
        | [] =>
          if produced ≠ out.length then
            .error (.corruption "compressed block delivers less than it declares")
          else .ok out
        | [_] => .error (.corruption "match offset overruns the compressed input")
        | lo :: hi :: p =>
          let offset := lo.toNat ||| hi.toNat <<< 8
          if offset = 0 ∨ produced < offset then
            .error (.corruption "match reaches before the start of the block")
          else
            let matchRoom := out.length - produced
            match readLength matchRoom (token.toNat &&& 0xf) kMinMatch p with
            | none => .error (.corruption "match length overruns the block")
            | some (matchLength, p) =>
              if matchRoom < matchLength then
                .error (.corruption "match overruns the declared size")
              else decompressLoop turns p (copyMatch out produced offset matchLength)
                (produced + matchLength)

/-- `decompress_into`. -/
def decompressInto (input : Bytes) (total : ℕ) : Except Status Bytes :=
  decompressLoop (input.length + 1) input (List.replicate total 0) 0

/-- `decompress_block` (lines 213–223). -/
def decompressBlock (input : Bytes) : Except Status Bytes := do
  let (total, body) ← compressedLength input
  decompressInto body total

/-! ## Lengths -/

theorem length_putLength (length : ℕ) : (putLength length).length = length / 255 + 1 := by
  induction length using Nat.strong_induction_on with
  | _ length ih =>
    rw [putLength]
    split_ifs with h
    · rw [List.length_cons, ih _ (by omega)]
      omega
    · rw [List.length_singleton]
      omega

theorem readExtra_putLength {room : ℕ} (rest : Bytes) (length : ℕ) :
    ∀ {acc : ℕ}, acc + length ≤ room →
      readExtra room acc (putLength length ++ rest) = some (acc + length, rest) := by
  induction length using Nat.strong_induction_on with
  | _ length ih =>
    intro acc hroom
    rw [putLength]
    split_ifs with h
    · rw [List.cons_append, readExtra, if_neg (by show ¬ room < acc + 255; omega),
        if_neg (by decide), ih _ (by omega) (by show acc + 255 + (length - 255) ≤ room; omega)]
      show some (acc + 255 + (length - 255), rest) = _
      rw [show acc + 255 + (length - 255) = acc + length by omega]
    · have hbyte : (UInt8.ofNat length).toNat = length := by
        rw [UInt8.toNat_ofNat']
        omega
      have hne : UInt8.ofNat length ≠ 255 := by
        intro heq
        rw [heq] at hbyte
        exact h hbyte.le
      rw [List.singleton_append, readExtra, hbyte, if_neg (by omega), if_pos hne]

/-- A length written as a nibble and its continuation is read back. -/
theorem readLength_continued {room length least : ℕ} (rest : Bytes) (hroom : length + least ≤ room) :
    readLength room (nibbleOf length) least (continued length ++ rest) =
      some (length + least, rest) := by
  unfold readLength nibbleOf continued
  by_cases h : 15 ≤ length
  · rw [if_pos h, if_pos rfl, if_pos h, readExtra_putLength rest _ (by omega)]
    congr 2
    omega
  · rw [if_neg h, if_neg (by omega), if_neg h, List.nil_append]

theorem nibbleOf_le (length : ℕ) : nibbleOf length ≤ 15 := by
  unfold nibbleOf
  split_ifs <;> omega

/-- The two nibbles of a token. -/
theorem token_nibbles {a b : ℕ} (ha : a ≤ 15) (hb : b ≤ 15) :
    (UInt8.ofNat (a <<< 4 ||| b)).toNat >>> 4 = a ∧ (UInt8.ofNat (a <<< 4 ||| b)).toNat &&& 0xf = b := by
  have htoken : (UInt8.ofNat (a <<< 4 ||| b)).toNat = b + a * 16 := by
    rw [Nat.or_comm, or_shiftLeft_of_lt (by omega), UInt8.toNat_ofNat']
    omega
  rw [htoken, Nat.shiftRight_eq_div_pow, show (0xf : ℕ) = 2 ^ 4 - 1 from rfl,
    Nat.and_two_pow_sub_one_eq_mod]
  omega

theorem offset_bytes {offset : ℕ} (h : offset ≤ kMaxOffset) :
    (UInt8.ofNat (offset % 256)).toNat ||| (UInt8.ofNat (offset / 256 % 256)).toNat <<< 8 = offset := by
  unfold kMaxOffset at h
  rw [UInt8.toNat_ofNat', UInt8.toNat_ofNat', or_shiftLeft_of_lt (by omega)]
  omega

/-! ## Decoding -/

section

variable {text out : Bytes} {produced : ℕ}

theorem copyLiterals_spec {literals rest : Bytes} (hlit : literals <+: text.drop produced)
    (hle : produced + literals.length ≤ text.length) (hagree : Agree out text produced)
    (hlen : out.length = text.length) :
    Agree (copyLiterals (literals ++ rest) out produced literals.length) text
        (produced + literals.length) ∧
      (copyLiterals (literals ++ rest) out produced literals.length).length = text.length := by
  obtain ⟨t, ht⟩ := hlit
  have hget : ∀ j < literals.length, literals[j]? = text[produced + j]? := by
    intro j hj
    rw [← List.getElem?_drop, ← ht, List.getElem?_append_left hj]
  unfold copyLiterals
  split_ifs with hwild
  · rw [hlen] at hwild
    refine Lib.agree_copySteps (by decide) (fun buf done _ _ hdone => ⟨?_, fun j hj hlt => ?_⟩)
      (by omega) (by omega) (by omega) hagree hlen
    · rw [List.length_take, List.length_drop]
      omega
    · rw [List.getElem?_take, if_pos hj, List.getElem?_drop, List.getElem?_append_left hlt,
        hget _ hlt, Nat.add_assoc]
  · rw [List.take_left]
    exact ⟨agree_overwrite hagree (by omega) le_rfl hget, (Lib.length_overwrite (by omega)).trans hlen⟩

theorem copyMatch_spec {offset matchLength : ℕ} (hoff : 0 < offset) (hback : offset ≤ produced)
    (hle : produced + matchLength ≤ text.length) (hrep : Repeats text offset produced matchLength)
    (hagree : Agree out text produced) (hlen : out.length = text.length) :
    Agree (copyMatch out produced offset matchLength) text (produced + matchLength) ∧
      (copyMatch out produced offset matchLength).length = text.length := by
  unfold copyMatch
  split_ifs with hwild hplain
  · -- in steps: a step reads only what was there before it
    rw [hlen] at hwild
    refine Lib.agree_copySteps (by decide) (fun buf done hbuf hbuflen hdone => ⟨?_, fun j hj hlt => ?_⟩)
      (by omega) (by omega) (by omega) hagree hlen
    · rw [List.length_take, List.length_drop]
      omega
    · rw [List.getElem?_take, if_pos hj, List.getElem?_drop, hbuf _ (by omega),
        Nat.add_assoc produced done j, hrep _ hlt]
      congr 1
      omega
  · refine ⟨agree_overwrite hagree (by omega) ?_ fun j hj => ?_, ?_⟩
    · rw [List.length_take, List.length_drop]
      omega
    · rw [List.getElem?_take, if_pos hj, List.getElem?_drop, hagree _ (by omega), hrep j hj]
      congr 1
      omega
    · rw [Lib.length_overwrite, hlen]
      rw [List.length_take, List.length_drop]
      omega
  · exact Lib.agree_copyEach hoff hback hle hrep hagree hlen

end

/-- A copy as the encoder writes it. -/
def emitCopy (c : Copy UInt8) : Bytes := emitSequence c.literals c.length c.offset

/-- A copy the format can hold. -/
def Encodable (c : Copy UInt8) : Prop := kMinMatch ≤ c.length ∧ c.offset ≤ kMaxOffset

/-- **One sequence is decoded**: the buffer then agrees with the text so much further. -/
theorem decompressLoop_emitCopy {text out rest : Bytes} {produced turns : ℕ} {c : Copy UInt8}
    (hc : Encodable c) (hlit : c.literals <+: text.drop produced) (hoff : 0 < c.offset)
    (hback : c.offset ≤ produced + c.literals.length)
    (hrep : Repeats text c.offset (produced + c.literals.length) c.length)
    (hroom : produced + c.size ≤ text.length) (hagree : Agree out text produced)
    (hlen : out.length = text.length) :
    ∃ out', Agree out' text (produced + c.size) ∧ out'.length = text.length ∧
      decompressLoop (turns + 1) (emitCopy c ++ rest) out produced =
        decompressLoop turns rest out' (produced + c.size) := by
  obtain ⟨hmin, hmax⟩ := hc
  unfold Copy.size at hroom ⊢
  have hne : c.length ≠ 0 := by
    unfold kMinMatch at hmin
    omega
  obtain ⟨hhigh, hlow⟩ := token_nibbles (nibbleOf_le c.literals.length) (nibbleOf_le (c.length - kMinMatch))
  have hbytes : emitCopy c ++ rest =
      UInt8.ofNat (nibbleOf c.literals.length <<< 4 ||| nibbleOf (c.length - kMinMatch)) ::
        (continued c.literals.length ++ (c.literals ++
          (UInt8.ofNat (c.offset % 256) :: UInt8.ofNat (c.offset / 256 % 256) ::
            (continued (c.length - kMinMatch) ++ rest)))) := by
    unfold emitCopy emitSequence
    simp only [if_neg hne, List.append_assoc, List.cons_append, List.nil_append]
  obtain ⟨hagree', hlen'⟩ := @copyLiterals_spec text out produced c.literals
    (UInt8.ofNat (c.offset % 256) :: UInt8.ofNat (c.offset / 256 % 256) ::
      (continued (c.length - kMinMatch) ++ rest)) hlit (by omega) hagree hlen
  obtain ⟨hagree'', hlen''⟩ := copyMatch_spec hoff hback (by omega) hrep hagree' hlen'
  refine ⟨_, by rwa [← Nat.add_assoc], hlen'', ?_⟩
  rw [hbytes, decompressLoop]
  simp only [hhigh, hlow]
  rw [readLength_continued _ (by omega)]
  simp only [Nat.add_zero]
  rw [if_neg (by omega), if_neg (by rw [List.length_append]; omega), List.drop_left]
  simp only [offset_bytes hmax]
  rw [if_neg (by omega), readLength_continued _ (by omega)]
  simp only
  rw [if_neg (by omega), Nat.sub_add_cancel hmin, Nat.add_assoc]

/-- The last sequence holds the rest of the text. -/
theorem decompressLoop_last {text out : Bytes} {produced turns : ℕ} (hle : produced ≤ text.length)
    (hagree : Agree out text produced) (hlen : out.length = text.length) :
    decompressLoop (turns + 1) (emitSequence (text.drop produced) 0 0) out produced = .ok text := by
  obtain ⟨hhigh, -⟩ := token_nibbles (nibbleOf_le (text.drop produced).length) (Nat.zero_le 15)
  have hbytes : emitSequence (text.drop produced) 0 0 =
      UInt8.ofNat (nibbleOf (text.drop produced).length <<< 4 ||| 0) ::
        (continued (text.drop produced).length ++ (text.drop produced ++ [])) := by
    unfold emitSequence
    simp only [if_true, List.append_nil, List.nil_append, List.cons_append]
  have hdrop : (text.drop produced).length = text.length - produced := List.length_drop
  obtain ⟨hagree', hlen'⟩ := @copyLiterals_spec text out produced (text.drop produced) []
    (List.prefix_refl _) (by omega) hagree hlen
  have hend : produced + (text.drop produced).length = text.length := by omega
  rw [hend] at hagree'
  rw [hbytes, decompressLoop]
  simp only [hhigh]
  rw [readLength_continued _ (by omega)]
  simp only [Nat.add_zero]
  rw [if_neg (by omega), if_neg (by rw [List.length_append]; omega), List.drop_left]
  simp only
  rw [if_neg (by rw [hend, hlen']; exact not_not.mpr rfl), hagree'.eq hlen']

/-- **Sequences that describe a text are decoded to it.** -/
theorem decompressLoop_copies {text : Bytes} {produced stop : ℕ} {cs : List (Copy UInt8)}
    (h : Copies text produced cs stop) (hstop : stop ≤ text.length) :
    ∀ {turns : ℕ} {out : Bytes}, (∀ c ∈ cs, Encodable c) → cs.length < turns →
      Agree out text produced → out.length = text.length →
      decompressLoop turns (cs.flatMap emitCopy ++ emitSequence (text.drop stop) 0 0) out produced =
        .ok text := by
  induction h with
  | nil pos =>
    intro turns out _ hturns hagree hlen
    obtain ⟨turns, rfl⟩ := Nat.exists_eq_succ_of_ne_zero (Nat.ne_of_gt hturns)
    exact decompressLoop_last hstop hagree hlen
  | cons hlit hoff hback hrep hroom _ ih =>
    intro turns out hcs hturns hagree hlen
    obtain ⟨turns, rfl⟩ := Nat.exists_eq_succ_of_ne_zero (Nat.ne_of_gt (Nat.zero_lt_of_lt hturns))
    rw [List.flatMap_cons, List.append_assoc]
    obtain ⟨out', hagree', hlen', heq⟩ := decompressLoop_emitCopy (hcs _ List.mem_cons_self) hlit hoff
      hback hrep hroom hagree hlen
    rw [heq]
    exact ih hstop (fun c hc => hcs c (List.mem_cons_of_mem _ hc))
      (Nat.lt_of_succ_lt_succ hturns) hagree' hlen'

/-! ## Encoding -/

section

variable {base : Bytes} {matchPos pos : ℕ}

theorem extendByEight_repeats (hle : matchPos ≤ pos) :
    ∀ {turns length : ℕ}, Repeats base (pos - matchPos) pos length → pos + length ≤ base.length →
      Repeats base (pos - matchPos) pos (extendByEight base matchPos pos turns length) ∧
        pos + extendByEight base matchPos pos turns length ≤ base.length ∧
        length ≤ extendByEight base matchPos pos turns length := by
  intro turns
  induction turns with
  | zero => exact fun h hroom => ⟨h, hroom, le_rfl⟩
  | succ turns ih =>
    intro length h hroom
    rw [extendByEight]
    split_ifs with hmore
    · obtain ⟨h1, h2, h3⟩ := ih (h.take_eq hle hmore.2) (by omega)
      exact ⟨h1, h2, by omega⟩
    · exact ⟨h, hroom, le_rfl⟩

theorem extendByOne_repeats (hle : matchPos ≤ pos) :
    ∀ {turns length : ℕ}, Repeats base (pos - matchPos) pos length → pos + length ≤ base.length →
      Repeats base (pos - matchPos) pos (extendByOne base matchPos pos turns length) ∧
        pos + extendByOne base matchPos pos turns length ≤ base.length ∧
        length ≤ extendByOne base matchPos pos turns length := by
  intro turns
  induction turns with
  | zero => exact fun h hroom => ⟨h, hroom, le_rfl⟩
  | succ turns ih =>
    intro length h hroom
    rw [extendByOne]
    split_ifs with hmore
    · obtain ⟨h1, h2, h3⟩ := @ih (length + 1) (fun i hi => by
        by_cases hlt : i < length
        · exact h i hlt
        · rw [show i = length by omega, ← hmore.2]
          congr 1
          omega) (by omega)
      exact ⟨h1, h2, by omega⟩
    · exact ⟨h, hroom, le_rfl⟩

/-- A match is a repetition of at least four bytes within the input. -/
theorem matchLength_spec (hle : matchPos ≤ pos) (hroom : pos + kMinMatch ≤ base.length)
    (heq : (base.drop matchPos).take kMinMatch = (base.drop pos).take kMinMatch) :
    Repeats base (pos - matchPos) pos (matchLength base matchPos pos) ∧
      pos + matchLength base matchPos pos ≤ base.length ∧
      kMinMatch ≤ matchLength base matchPos pos := by
  have hfour : Repeats base (pos - matchPos) pos (0 + kMinMatch) :=
    Repeats.take_eq (fun i hi => absurd hi (Nat.not_lt_zero i)) hle heq
  rw [Nat.zero_add] at hfour
  obtain ⟨h1, h2, h3⟩ := extendByEight_repeats hle hfour hroom
  obtain ⟨h4, h5, h6⟩ := extendByOne_repeats hle h1 h2
  exact ⟨h4, h5, h3.trans h6⟩

end

/-- The encoder's variables: positions in order, and none in the table past `pos`. -/
structure Encoder.Ok (e : Encoder) (base : Bytes) : Prop where
  literals : e.literalStart ≤ e.pos
  pos : e.pos ≤ base.length
  table : ∀ t ∈ e.table, t ≤ e.pos

theorem mem_set_le {l : List ℕ} {i a n : ℕ} (h : ∀ t ∈ l, t ≤ n) (ha : a ≤ n) :
    ∀ t ∈ l.set i a, t ≤ n := by
  intro t ht
  rcases List.mem_or_eq_of_mem_set ht with ht | rfl
  · exact h t ht
  · exact ha

/-- **One turn of the encoder** passes a byte or emits a copy that the input repeats. -/
theorem encodeStep_spec {base : Bytes} {bits lastHashable : ℕ} {e : Encoder} (h : e.Ok base)
    (hpos : e.pos + kMinMatch ≤ base.length) :
    (encodeStep base bits lastHashable e).Ok base ∧
      e.pos < (encodeStep base bits lastHashable e).pos ∧
      ∃ cs, (∀ c ∈ cs, Encodable c) ∧
        (encodeStep base bits lastHashable e).out = e.out ++ cs.flatMap emitCopy ∧
        Copies base e.literalStart cs (encodeStep base bits lastHashable e).literalStart := by
  have hmod : (e.pos + 1) % 2 ^ 32 ≤ e.pos + 1 := Nat.mod_le _ _
  have htable : ∀ i, ∀ t ∈ e.table.set i ((e.pos + 1) % 2 ^ 32), t ≤ e.pos + 1 :=
    fun i => mem_set_le (fun t ht => (h.table t ht).trans (Nat.le_succ _)) hmod
  have hmin : kMinMatch = 4 := rfl
  have hpass : ∀ i, Encoder.Ok { e with pos := e.pos + 1, table := e.table.set i ((e.pos + 1) % 2 ^ 32) } base :=
    fun i => ⟨h.literals.trans (Nat.le_succ _), by show e.pos + 1 ≤ _; omega, htable i⟩
  unfold encodeStep
  simp only
  generalize hc : e.table.getD (hash4 (base.drop e.pos) bits) 0 = candidate
  by_cases hcand : candidate = 0
  · rw [if_pos hcand]
    exact ⟨hpass _, Nat.lt_succ_self _, [], by simp, by simp, .nil _⟩
  by_cases hmatch : kMaxOffset < e.pos - (candidate - 1) ∨
      (base.drop (candidate - 1)).take kMinMatch ≠ (base.drop e.pos).take kMinMatch
  · rw [if_neg hcand, if_pos hmatch]
    exact ⟨hpass _, Nat.lt_succ_self _, [], by simp, by simp, .nil _⟩
  rw [if_neg hcand, if_neg hmatch]
  rw [not_or, not_not, not_lt] at hmatch
  -- the candidate is a position before this one
  have hle : candidate ≤ e.pos := by
    rw [List.getD_eq_getElem?_getD] at hc
    cases hget : e.table[hash4 (base.drop e.pos) bits]? with
    | none =>
      rw [hget] at hc
      exact absurd hc.symm hcand
    | some t =>
      rw [hget, Option.getD_some] at hc
      exact hc ▸ h.table t (List.mem_of_getElem? hget)
  obtain ⟨hrep, hroom, hfour⟩ := matchLength_spec (by omega : candidate - 1 ≤ e.pos) hpos hmatch.2
  generalize matchLength base (candidate - 1) e.pos = length at *
  have hlit : ((base.drop e.literalStart).take (e.pos - e.literalStart)).length =
      e.pos - e.literalStart := by
    rw [List.length_take, List.length_drop]
    omega
  have hstart : e.literalStart + (e.pos - e.literalStart) = e.pos := Nat.add_sub_cancel' h.literals
  refine ⟨⟨le_rfl, hroom, ?_⟩, by show e.pos < e.pos + length; omega,
    [⟨(base.drop e.literalStart).take (e.pos - e.literalStart), e.pos - (candidate - 1), length⟩],
    by simpa using ⟨hfour, hmatch.1⟩, by simp [emitCopy], ?_⟩
  · have hlater : ∀ t ∈ e.table.set (hash4 (base.drop e.pos) bits) ((e.pos + 1) % 2 ^ 32),
        t ≤ e.pos + length := fun t ht => (htable _ t ht).trans (by omega)
    show ∀ t ∈ ite _ _ _, t ≤ e.pos + length
    split_ifs
    · exact mem_set_le hlater (Nat.mod_le _ _)
    · exact hlater
  · refine .cons (List.take_prefix _ _) (by show 0 < e.pos - _; omega) ?_ ?_ ?_ ?_
    · show e.pos - (candidate - 1) ≤ _
      rw [hlit]
      omega
    · show Repeats base (e.pos - (candidate - 1)) (e.literalStart + _) length
      rwa [hlit, hstart]
    · show e.literalStart + (_ + length) ≤ _
      rw [hlit]
      omega
    · show Copies base (e.literalStart + (_ + length)) [] (e.pos + length)
      rw [hlit, ← Nat.add_assoc, hstart]
      exact .nil _

/-- **The encoder's sequences describe its input**, from where it starts. -/
theorem encodeLoop_copies {base : Bytes} {bits lastHashable : ℕ}
    (hlast : ∀ pos < lastHashable, pos + kMinMatch ≤ base.length) :
    ∀ {turns : ℕ} {e : Encoder}, e.Ok base →
      (encodeLoop base bits lastHashable turns e).Ok base ∧
      ∃ cs, (∀ c ∈ cs, Encodable c) ∧
        (encodeLoop base bits lastHashable turns e).out = e.out ++ cs.flatMap emitCopy ∧
        Copies base e.literalStart cs (encodeLoop base bits lastHashable turns e).literalStart := by
  intro turns
  induction turns with
  | zero => exact fun h => ⟨h, [], by simp, by simp [encodeLoop], .nil _⟩
  | succ turns ih =>
    intro e h
    rw [encodeLoop]
    split_ifs with hpos
    · obtain ⟨hok, -, cs, hcs, hout, hcopies⟩ :=
        @encodeStep_spec base bits lastHashable e h (hlast _ hpos)
      obtain ⟨hok', ds, hds, hout', hcopies'⟩ := ih hok
      refine ⟨hok', cs ++ ds, fun c hc => ?_, ?_, hcopies.append hcopies'⟩
      · rcases List.mem_append.mp hc with hc | hc
        · exact hcs c hc
        · exact hds c hc
      · rw [hout', hout, List.flatMap_append, List.append_assoc]
    · exact ⟨h, [], by simp, by simp, .nil _⟩

/-- What `compress_block` writes: sequences that describe the input, and the rest. -/
theorem compressBody_spec (input : Bytes) :
    ∃ cs stop, (∀ c ∈ cs, Encodable c) ∧ Copies input 0 cs stop ∧ stop ≤ input.length ∧
      compressBody input = cs.flatMap emitCopy ++ emitSequence (input.drop stop) 0 0 := by
  by_cases hn : input.length = 0
  · refine ⟨[], 0, by simp, .nil 0, Nat.zero_le _, ?_⟩
    rw [compressBody, if_pos hn, List.length_eq_zero_iff.mp hn]
    simp [emitSequence, continued, nibbleOf]
  · have hlast : ∀ pos < (if kMinMatch ≤ input.length then input.length - kMinMatch + 1 else 0),
        pos + kMinMatch ≤ input.length := by
      intro pos hpos
      split_ifs at hpos <;> omega
    obtain ⟨hok, cs, hcs, hout, hcopies⟩ := @encodeLoop_copies input (hashBitsFor input.length) _ hlast
      input.length ⟨0, 0, List.replicate (2 ^ hashBitsFor input.length) 0, []⟩
      ⟨le_rfl, Nat.zero_le _, fun t ht => (List.eq_of_mem_replicate ht).le⟩
    refine ⟨cs, _, hcs, hcopies, hok.literals.trans hok.pos, ?_⟩
    rw [compressBody, if_neg hn]
    simp only [hout, List.nil_append]

/-! ## Sizes -/

theorem length_continued (length : ℕ) :
    (continued length).length = if 15 ≤ length then (length - 15) / 255 + 1 else 0 := by
  unfold continued
  split_ifs
  · exact length_putLength _
  · rfl

/-- A byte of a sequence is worth at most 255, and a copy costs no more than its own
    bytes and one more for every 255. -/
theorem emitCopy_bounds {c : Copy UInt8} (hc : Encodable c) :
    c.size ≤ 255 * (emitCopy c).length ∧ (emitCopy c).length ≤ c.size + c.size / 255 := by
  obtain ⟨hmin, -⟩ := hc
  unfold kMinMatch at hmin
  have hlen : (emitCopy c).length = 1 + (continued c.literals.length).length + c.literals.length +
      (2 + (continued (c.length - 4)).length) := by
    unfold emitCopy emitSequence kMinMatch
    simp only [if_neg (by omega : ¬ c.length = 0), List.length_append, List.length_cons, List.length_nil]
  rw [hlen, length_continued, length_continued]
  unfold Copy.size
  split_ifs <;> omega

theorem emitSequence_bounds (literals : Bytes) :
    literals.length ≤ 255 * (emitSequence literals 0 0).length ∧
      (emitSequence literals 0 0).length ≤ literals.length + literals.length / 255 + 2 := by
  have hlen : (emitSequence literals 0 0).length =
      1 + (continued literals.length).length + literals.length := by
    unfold emitSequence
    simp only [if_true, List.length_append, List.length_cons, List.length_nil, Nat.add_zero]
  rw [hlen, length_continued]
  split_ifs <;> omega

theorem flatMap_emitCopy_bounds {cs : List (Copy UInt8)} (h : ∀ c ∈ cs, Encodable c) :
    (cs.map Copy.size).sum ≤ 255 * (cs.flatMap emitCopy).length ∧
      (cs.flatMap emitCopy).length ≤ (cs.map Copy.size).sum + (cs.map Copy.size).sum / 255 := by
  induction cs with
  | nil => simp
  | cons c cs ih =>
    obtain ⟨h1, h2⟩ := emitCopy_bounds (h c List.mem_cons_self)
    obtain ⟨h3, h4⟩ := ih fun d hd => h d (List.mem_cons_of_mem _ hd)
    rw [List.map_cons, List.sum_cons, List.flatMap_cons, List.length_append]
    omega

theorem compressBody_bounds (input : Bytes) :
    input.length ≤ 255 * (compressBody input).length ∧
      (compressBody input).length ≤ input.length + input.length / 255 + 2 := by
  obtain ⟨cs, stop, hcs, hcopies, hstop, hbody⟩ := compressBody_spec input
  obtain ⟨h1, h2⟩ := flatMap_emitCopy_bounds hcs
  obtain ⟨h3, h4⟩ := emitSequence_bounds (input.drop stop)
  have hsum := hcopies.stop_eq
  rw [hbody, List.length_append]
  rw [List.length_drop] at h3 h4
  omega

/-- The encoder writes no further than the room it makes for its output. -/
theorem length_compressBody_le (input : Bytes) :
    (compressBody input).length ≤ maxCompressedSize input.length := by
  have := (compressBody_bounds input).2
  unfold maxCompressedSize
  omega

/-! ## Decompression gives the input back -/

theorem compressedLength_compress {input : Bytes} (h : input.length < 2 ^ 32) :
    compressedLength (compressBlock input []) = .ok (input.length, compressBody input) := by
  have := (compressBody_bounds input).1
  rw [compressedLength, compressBlock, List.nil_append, Nat.mod_eq_of_lt h, getVarint32_put h]
  simp only
  rw [if_neg (by omega)]

theorem decompressInto_compressBody (input : Bytes) :
    decompressInto (compressBody input) input.length = .ok input := by
  obtain ⟨cs, stop, hcs, hcopies, hstop, hbody⟩ := compressBody_spec input
  have hlen : cs.length < (compressBody input).length + 1 := by
    have : ∀ ds : List (Copy UInt8), ds.length ≤ (ds.flatMap emitCopy).length := by
      intro ds
      induction ds with
      | nil => exact le_rfl
      | cons d ds ih =>
        have : 1 ≤ (emitCopy d).length := by
          unfold emitCopy emitSequence
          simp only [List.length_append, List.length_cons]
          omega
        rw [List.flatMap_cons, List.length_append, List.length_cons]
        omega
    have := this cs
    rw [hbody, List.length_append]
    omega
  rw [decompressInto, hbody]
  rw [hbody] at hlen
  exact decompressLoop_copies hcopies hstop hcs hlen (fun i hi => absurd hi (Nat.not_lt_zero i))
    (List.length_replicate ..)

theorem decompress_compress {input : Bytes} (h : input.length < 2 ^ 32) :
    decompressBlock (compressBlock input []) = .ok input := by
  rw [decompressBlock, compressedLength_compress h]
  exact decompressInto_compressBody input

/-- **Decompression gives the input back**, and the cap on the declared length does not
    refuse what the encoder wrote. -/
theorem decompressBlock_compressBlock {input : Bytes} (h : input.length < 2 ^ 32) :
    compressedLength (compressBlock input []) = .ok (input.length, compressBody input) ∧
      decompressBlock (compressBlock input []) = .ok input :=
  ⟨compressedLength_compress h, decompress_compress h⟩

/-- A run of one byte. -/
theorem decompressBlock_compressBlock_run :
    compressedLength (compressBlock (List.replicate 20 7) []) =
        .ok (20, compressBody (List.replicate 20 7)) ∧
      decompressBlock (compressBlock (List.replicate 20 7) []) = .ok (List.replicate 20 7) :=
  @decompressBlock_compressBlock (List.replicate 20 7) (by decide)

end Ambar
