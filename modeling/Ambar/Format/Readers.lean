import Ambar.Lib.Reader
import Ambar.Format.Encoding

/-!
# The readers on any input

`Format.Encoding` shows that what is written is read back. Here the readers of
`src/encoding.cpp` are on input that was cut, or that nobody wrote.

* `reads_getVarint32`, `reads_getVarint64`, `reads_getLengthPrefixed`: a number or a byte string
  is read back, and a proper prefix of it is refused.
* `getVarint_lt`, `getLengthPrefixed_lt`, `decodeFixed_lt`: what is read fits its type, whatever the input.
* `getVarint_value`: a number that does not fit loses its high bits.
* `getVarint_exact_iff`: when the number read is the one the bytes stand for.
-/

namespace Ambar

/-! ## Cut input -/

/-- Bytes that all announce another are no number. -/
theorem getVarint_eq_none {width : ℕ} {input : Bytes} (h : ∀ byte ∈ input, 128 ≤ byte.toNat) :
    ∀ maxBytes shift result, getVarint width maxBytes shift result input = none := by
  induction input with
  | nil =>
    intro maxBytes shift result
    cases maxBytes <;> rfl
  | cons byte input ih =>
    intro maxBytes shift result
    cases maxBytes with
    | zero => rfl
    | succ maxBytes =>
      rw [getVarint, if_neg (not_lt.mpr (h byte List.mem_cons_self))]
      exact ih (fun b hb => h b (List.mem_cons_of_mem _ hb)) _ _ _

/-- Every byte of a number but the last announces another. -/
theorem continues_of_prefix_putVarint (n : ℕ) :
    ∀ p, p <+: putVarint n → p ≠ putVarint n → ∀ byte ∈ p, 128 ≤ byte.toNat := by
  fun_induction putVarint n with
  | case1 n hlt =>
    intro p hp hne byte hb
    rcases List.prefix_cons_iff.mp hp with rfl | ⟨q, rfl, hq⟩
    · exact nomatch hb
    · exact absurd (by rw [List.prefix_nil.mp hq]) hne
  | case2 n hlt ih =>
    intro p hp hne byte hb
    rcases List.prefix_cons_iff.mp hp with rfl | ⟨q, rfl, hq⟩
    · exact nomatch hb
    · rcases List.mem_cons.mp hb with rfl | hb
      · rw [UInt8.toNat_ofNat']
        omega
      · exact ih q hq (fun heq => hne (heq ▸ rfl)) byte hb

theorem reads_getVarint32 {n : ℕ} (hn : n < 2 ^ 32) : Lib.Reads getVarint32 (putVarint n) n where
  whole := getVarint32_put hn
  cut p hp hne := getVarint_eq_none (continues_of_prefix_putVarint n p hp hne) _ _ _

theorem reads_getVarint64 {n : ℕ} (hn : n < 2 ^ 64) : Lib.Reads getVarint64 (putVarint n) n where
  whole := getVarint64_put hn
  cut p hp hne := getVarint_eq_none (continues_of_prefix_putVarint n p hp hne) _ _ _

theorem reads_getLengthPrefixed {value : Bytes} (h : value.length < 2 ^ 32) :
    Lib.Reads getLengthPrefixed (putLengthPrefixed value) value := by
  let next (length : ℕ) (input : Bytes) : Option (Bytes × Bytes) :=
    if input.length < length then none else some (input.take length, input.drop length)
  have hvalue : Lib.Reads (next value.length) value value := by
    refine ⟨fun rest => ?_, fun p hp hne => ?_⟩
    · simp [next]
    · have hlt : p.length < value.length :=
        lt_of_le_of_ne hp.length_le fun heq => hne (hp.eq_of_length heq)
      exact if_pos hlt
  rw [putLengthPrefixed, Nat.mod_eq_of_lt h]
  exact (reads_getVarint32 h).bind next hvalue

/-! ## What a reader can answer -/

theorem getVarint_lt {width : ℕ} : ∀ {maxBytes shift result : ℕ} {input : Bytes} {n : ℕ} {rest : Bytes},
    result < 2 ^ width → getVarint width maxBytes shift result input = some (n, rest) →
    n < 2 ^ width := by
  intro maxBytes
  induction maxBytes with
  | zero => exact fun _ h => nomatch h
  | succ maxBytes ih =>
    intro shift result input n rest hr h
    cases input with
    | nil => exact nomatch h
    | cons byte input =>
      rw [getVarint] at h
      have hor := Nat.or_lt_two_pow hr
        (Nat.mod_lt ((byte.toNat % 128) <<< shift) (Nat.two_pow_pos width))
      split_ifs at h
      · cases h
        exact hor
      · exact ih hor h

/-- What is left of the input is an end of it, and at least a byte shorter. -/
theorem getVarint_suffix {width : ℕ} :
    ∀ {maxBytes shift result : ℕ} {input : Bytes} {n : ℕ} {rest : Bytes},
      getVarint width maxBytes shift result input = some (n, rest) →
      rest <:+ input ∧ rest.length < input.length := by
  intro maxBytes
  induction maxBytes with
  | zero => exact fun h => nomatch h
  | succ maxBytes ih =>
    intro shift result input n rest h
    cases input with
    | nil => exact nomatch h
    | cons byte input =>
      rw [getVarint] at h
      split_ifs at h
      · cases h
        exact ⟨List.suffix_cons _ _, Nat.lt_succ_self _⟩
      · obtain ⟨hsuffix, hlt⟩ := ih h
        exact ⟨hsuffix.trans (List.suffix_cons byte input), hlt.trans (Nat.lt_succ_self _)⟩

theorem getVarint32_lt {input rest : Bytes} {n : ℕ} (h : getVarint32 input = some (n, rest)) :
    n < 2 ^ 32 := getVarint_lt (Nat.two_pow_pos _) h

theorem getVarint64_lt {input rest : Bytes} {n : ℕ} (h : getVarint64 input = some (n, rest)) :
    n < 2 ^ 64 := getVarint_lt (Nat.two_pow_pos _) h

theorem getLengthPrefixed_lt {input value rest : Bytes}
    (h : getLengthPrefixed input = some (value, rest)) : value.length < 2 ^ 32 := by
  obtain ⟨⟨length, input'⟩, hlength, h⟩ := Option.bind_eq_some_iff.mp h
  dsimp only at h
  split_ifs at h
  cases h
  exact (List.length_take_le _ _).trans_lt (getVarint32_lt hlength)

theorem getLengthPrefixed_length_le {input value rest : Bytes}
    (h : getLengthPrefixed input = some (value, rest)) : rest.length ≤ input.length := by
  obtain ⟨⟨length, input'⟩, hlength, h⟩ := Option.bind_eq_some_iff.mp h
  dsimp only at h
  split_ifs at h
  cases h
  exact (List.drop_sublist _ _).length_le.trans (getVarint_suffix hlength).2.le

theorem decodeFixed_lt (b : Bytes) : decodeFixed b < 256 ^ b.length := by
  induction b with
  | nil => exact Nat.one_pos
  | cons byte b ih =>
    have hbyte := byte.toNat_lt
    rw [decodeFixed, List.length_cons, pow_succ]
    omega

/-! ## The number that a varint stands for -/

/-- The sum of `(byte i mod 128) * 2 ^ (7 * i)`. -/
def groupSum (bytes : Bytes) : ℕ := (bytes.zipIdx.map fun b => b.1.toNat % 128 * 2 ^ (7 * b.2)).sum

theorem groupSum_cons (byte : UInt8) (bytes : Bytes) :
    groupSum (byte :: bytes) = byte.toNat % 128 + 128 * groupSum bytes := by
  have hshift : (bytes.zipIdx 1).map (fun b => b.1.toNat % 128 * 2 ^ (7 * b.2)) =
      bytes.zipIdx.map fun b => 128 * (b.1.toNat % 128 * 2 ^ (7 * b.2)) := by
    rw [List.zipIdx_succ, List.map_map]
    refine List.map_congr_left fun b _ => ?_
    show b.1.toNat % 128 * 2 ^ (7 * (b.2 + 1)) = 128 * (b.1.toNat % 128 * 2 ^ (7 * b.2))
    rw [Nat.mul_add, pow_add]
    ring
  rw [groupSum, List.zipIdx_cons, List.map_cons, List.sum_cons, hshift, List.sum_map_mul_left]
  simp [groupSum]

/-- One more group, of which the type keeps what fits. -/
theorem or_group_eq {width r x shift : ℕ} (hr : r < 2 ^ shift) (hw : r < 2 ^ width) :
    r ||| (x <<< shift) % 2 ^ width = (r + x * 2 ^ shift) % 2 ^ width := by
  rcases Nat.lt_or_ge shift width with hlt | hge
  · have hpow : 2 ^ width = 2 ^ (width - shift) * 2 ^ shift := by
      rw [← pow_add]
      congr 1
      omega
    have hmod : x * 2 ^ shift % 2 ^ width = (x % 2 ^ (width - shift)) * 2 ^ shift := by
      rw [hpow, Nat.mul_mod_mul_right]
    have hle : (x % 2 ^ (width - shift) + 1) * 2 ^ shift ≤ 2 ^ width := by
      rw [hpow]
      exact Nat.mul_le_mul_right _ (Nat.mod_lt _ (Nat.two_pow_pos _))
    have hfits : r + (x % 2 ^ (width - shift)) * 2 ^ shift < 2 ^ width := by
      rw [Nat.add_mul] at hle
      omega
    rw [Nat.shiftLeft_eq, hmod, ← Nat.shiftLeft_eq, or_shiftLeft_of_lt hr, Nat.add_mod, hmod,
      Nat.mod_eq_of_lt hw, Nat.mod_eq_of_lt hfits]
  · -- nothing of the group is left
    obtain ⟨k, rfl⟩ := Nat.exists_eq_add_of_le hge
    have hzero : x * 2 ^ (width + k) = 2 ^ width * (x * 2 ^ k) := by
      rw [pow_add]
      ring
    rw [Nat.shiftLeft_eq, hzero, Nat.mul_mod_right, Nat.or_zero, Nat.add_mul_mod_self_left,
      Nat.mod_eq_of_lt hw]

/-- What a reader of `width` bits returns. -/
theorem getVarint_value {width : ℕ} :
    ∀ {maxBytes shift result : ℕ} {input : Bytes} {n : ℕ} {rest : Bytes},
      result < 2 ^ shift → result < 2 ^ width →
      getVarint width maxBytes shift result input = some (n, rest) →
      ∃ bytes, input = bytes ++ rest ∧ n = (result + groupSum bytes * 2 ^ shift) % 2 ^ width := by
  intro maxBytes
  induction maxBytes with
  | zero =>
    intro shift result input n rest _ _ h
    cases h
  | succ maxBytes ih =>
    intro shift result input n rest hr hw h
    cases input with
    | nil => cases h
    | cons byte input =>
      rw [getVarint, or_group_eq hr hw] at h
      split_ifs at h with hlast
      · cases h
        refine ⟨[byte], rfl, ?_⟩
        rw [groupSum_cons]
        rfl
      · have hr' : (result + byte.toNat % 128 * 2 ^ shift) % 2 ^ width < 2 ^ (shift + 7) := by
          refine (Nat.mod_le _ _).trans_lt ?_
          have hgroup : byte.toNat % 128 * 2 ^ shift ≤ 127 * 2 ^ shift :=
            Nat.mul_le_mul_right _ (by omega)
          rw [pow_add]
          omega
        obtain ⟨bytes, rfl, rfl⟩ := ih hr' (Nat.mod_lt _ (Nat.two_pow_pos _)) h
        refine ⟨byte :: bytes, rfl, ?_⟩
        rw [groupSum_cons, Nat.mod_add_mod]
        congr 1
        rw [pow_add]
        ring

/-- A reader is exact on an input if the number it returns, if any, is what the bytes it
    consumed stand for. -/
def Exact (get : Bytes → Option (ℕ × Bytes)) (input : Bytes) : Prop :=
  ∀ n rest, get input = some (n, rest) → n = groupSum (input.take (input.length - rest.length))

/-- Whatever a reader consumes stands for a number of `width` bits. -/
def FitsIn (width : ℕ) (get : Bytes → Option (ℕ × Bytes)) (input : Bytes) : Prop :=
  ∀ n rest, get input = some (n, rest) →
    groupSum (input.take (input.length - rest.length)) < 2 ^ width

theorem exact_iff_fitsIn (width maxBytes : ℕ) (input : Bytes) :
    Exact (getVarint width maxBytes 0 0) input ↔ FitsIn width (getVarint width maxBytes 0 0) input := by
  refine forall₂_congr fun n rest => forall_congr' fun h => ?_
  obtain ⟨bytes, rfl, rfl⟩ := getVarint_value (Nat.two_pow_pos 0) (Nat.two_pow_pos width) h
  have hbytes : (bytes ++ rest).take ((bytes ++ rest).length - rest.length) = bytes := by
    rw [List.length_append, Nat.add_sub_cancel, List.take_left]
  rw [hbytes, Nat.zero_add, pow_zero, Nat.mul_one]
  exact ⟨fun heq => heq ▸ Nat.mod_lt _ (Nat.two_pow_pos width), Nat.mod_eq_of_lt⟩

/-- **What `get_varint32` and `get_varint64` return** is what the bytes stand for exactly
    where that fits the type; the readers do not refuse what does not fit. -/
theorem getVarint_exact_iff (input : Bytes) :
    (Exact getVarint32 input ↔ FitsIn 32 getVarint32 input) ∧
    (Exact getVarint64 input ↔ FitsIn 64 getVarint64 input) :=
  ⟨exact_iff_fitsIn 32 5 input, exact_iff_fitsIn 64 10 input⟩

/-- Five bytes that stand for 2^32, and ten that stand for 2^64, are read as zero. -/
theorem getVarint_discards :
    getVarint32 [128, 128, 128, 128, 16] = some (0, []) ∧
      groupSum [128, 128, 128, 128, 16] = 2 ^ 32 ∧
      getVarint64 [128, 128, 128, 128, 128, 128, 128, 128, 128, 2] = some (0, []) ∧
      groupSum [128, 128, 128, 128, 128, 128, 128, 128, 128, 2] = 2 ^ 64 := by
  decide +kernel

end Ambar
