import Ambar.Format.Encoding
import Mathlib.Data.Nat.Bitwise

/-!
# Checksums

The CRC-32C of `src/encoding.cpp` (lines 79–109), which logs and tables carry. A
`uint32_t` is a natural number.

* `crc32cExtend_lt`: the checksum fits its four bytes.
* `crc32cExtend_set`: one changed byte changes the checksum.
* `putFixed_decodeFixed`: four bytes are those of the number they decode to.
-/

namespace Ambar

/-- `kPolynomial`, the Castagnoli polynomial, bit-reversed. -/
def kPolynomial : ℕ := 0x82F63B78

/-- One bit of an entry of the table (line 87). -/
def crcBit (crc : ℕ) : ℕ := if crc % 2 = 1 then (crc >>> 1) ^^^ kPolynomial else crc >>> 1

/-- `crc_table()[i]` (lines 81–96). -/
def crcTable (i : ℕ) : ℕ := crcBit^[8] i

/-- The turn of the loop for one byte (line 104). -/
def crcByte (crc : ℕ) (c : UInt8) : ℕ := crcTable ((crc ^^^ c.toNat) % 256) ^^^ (crc >>> 8)

/-- `crc32c_extend` (lines 100–107). -/
def crc32cExtend (crc : ℕ) (data : Bytes) : ℕ :=
  data.foldl crcByte (crc ^^^ 0xFFFFFFFF) ^^^ 0xFFFFFFFF

theorem shiftRight_lt {n k : ℕ} (h : n < 2 ^ 32) : n >>> k < 2 ^ 32 :=
  (Nat.shiftRight_le n k).trans_lt h

theorem crcBit_lt {crc : ℕ} (h : crc < 2 ^ 32) : crcBit crc < 2 ^ 32 := by
  unfold crcBit
  split_ifs
  · exact Nat.xor_lt_two_pow (shiftRight_lt h) (by decide)
  · exact shiftRight_lt h

theorem crcTable_lt {i : ℕ} (h : i < 2 ^ 32) : crcTable i < 2 ^ 32 := by
  have hn : ∀ n, crcBit^[n] i < 2 ^ 32 := by
    intro n
    induction n with
    | zero => exact h
    | succ n ih =>
      rw [Function.iterate_succ_apply']
      exact crcBit_lt ih
  exact hn 8

theorem crcByte_lt {crc : ℕ} (h : crc < 2 ^ 32) (c : UInt8) : crcByte crc c < 2 ^ 32 :=
  Nat.xor_lt_two_pow (crcTable_lt (by omega)) (shiftRight_lt h)

theorem foldl_crcByte_lt {data : Bytes} : ∀ {crc : ℕ}, crc < 2 ^ 32 → data.foldl crcByte crc < 2 ^ 32 := by
  induction data with
  | nil => exact fun h => h
  | cons c data ih => exact fun h => ih (crcByte_lt h c)

theorem crc32cExtend_lt {crc : ℕ} (h : crc < 2 ^ 32) (data : Bytes) :
    crc32cExtend crc data < 2 ^ 32 :=
  Nat.xor_lt_two_pow (foldl_crcByte_lt (Nat.xor_lt_two_pow h (by decide))) (by decide)

/-- A checksum in two pieces. -/
theorem crc32cExtend_append (crc : ℕ) (a b : Bytes) :
    crc32cExtend (crc32cExtend crc a) b = crc32cExtend crc (a ++ b) := by
  simp only [crc32cExtend, Nat.xor_xor_cancel_right, List.foldl_append]

/-- The check value of CRC-32C. -/
example : crc32cExtend 0 (Bytes.ofName "123456789") = 0xE3069283 := by decide +kernel

/-! ## Changed bytes -/

theorem crcBit_xor (a b : ℕ) : crcBit (a ^^^ b) = crcBit a ^^^ crcBit b := by
  have hmod : (a ^^^ b) % 2 = (a % 2) ^^^ (b % 2) := Nat.xor_mod_two_pow (n := 1)
  rcases Nat.mod_two_eq_zero_or_one a with ha | ha <;>
    rcases Nat.mod_two_eq_zero_or_one b with hb | hb <;>
    rw [ha, hb] at hmod
  · rw [crcBit, crcBit, crcBit, if_neg (by rw [hmod]; decide), if_neg (by omega), if_neg (by omega),
      Nat.shiftRight_xor_distrib]
  · rw [crcBit, crcBit, crcBit, if_pos (by rw [hmod]; decide), if_neg (by omega), if_pos hb,
      Nat.shiftRight_xor_distrib, Nat.xor_assoc]
  · rw [crcBit, crcBit, crcBit, if_pos (by rw [hmod]; decide), if_pos ha, if_neg (by omega),
      Nat.shiftRight_xor_distrib, Nat.xor_assoc, Nat.xor_assoc, Nat.xor_comm (b >>> 1)]
  · rw [crcBit, crcBit, crcBit, if_neg (by rw [hmod]; decide), if_pos ha, if_pos hb,
      Nat.shiftRight_xor_distrib, Nat.xor_assoc, Nat.xor_comm (b >>> 1), ← Nat.xor_assoc kPolynomial,
      Nat.xor_self, Nat.zero_xor]

theorem crcBit_iterate_xor (k a b : ℕ) : crcBit^[k] (a ^^^ b) = crcBit^[k] a ^^^ crcBit^[k] b := by
  induction k with
  | zero => rfl
  | succ k ih => rw [Function.iterate_succ_apply', Function.iterate_succ_apply',
      Function.iterate_succ_apply', ih, crcBit_xor]

/-- Bits that are not the last only move down. -/
theorem crcBit_iterate_mul (k y : ℕ) : crcBit^[k] (y * 2 ^ k) = y := by
  induction k with
  | zero => exact Nat.mul_one y
  | succ k ih =>
    have hdouble : y * 2 ^ (k + 1) = 2 * (y * 2 ^ k) := by ring
    have hbit : crcBit (2 * (y * 2 ^ k)) = y * 2 ^ k := by
      rw [crcBit, if_neg (by omega), Nat.shiftRight_one]
      omega
    rw [Function.iterate_succ_apply, hdouble, hbit, ih]

theorem xor_low_high (x k : ℕ) : x % 2 ^ k ^^^ x / 2 ^ k * 2 ^ k = x := by
  refine Nat.eq_of_testBit_eq fun i => ?_
  rw [Nat.testBit_xor, Nat.testBit_mod_two_pow, Nat.testBit_mul_two_pow, Nat.testBit_div_two_pow]
  by_cases hi : i < k
  · simp [hi, Nat.not_le.mpr hi]
  · simp [hi, not_lt.mp hi, Nat.sub_add_cancel (not_lt.mp hi)]

/-- The turn for a byte is eight turns for its bits. -/
theorem crcByte_eq_iterate (crc : ℕ) (c : UInt8) : crcByte crc c = crcBit^[8] (crc ^^^ c.toNat) := by
  have hhigh : (crc ^^^ c.toNat) / 2 ^ 8 = crc >>> 8 := by
    rw [← Nat.shiftRight_eq_div_pow, Nat.shiftRight_xor_distrib,
      Nat.shiftRight_eq_div_pow c.toNat, Nat.div_eq_of_lt c.toNat_lt, Nat.xor_zero]
  calc crcByte crc c
      = crcBit^[8] ((crc ^^^ c.toNat) % 2 ^ 8) ^^^ crcBit^[8] ((crc ^^^ c.toNat) / 2 ^ 8 * 2 ^ 8) := by
        rw [crcBit_iterate_mul, hhigh]
        rfl
    _ = crcBit^[8] (crc ^^^ c.toNat) := by rw [← crcBit_iterate_xor, xor_low_high]

/-- The bit that leaves the word decides the highest bit of the next. -/
theorem eq_zero_of_crcBit {x : ℕ} (hx : x < 2 ^ 32) (h : crcBit x = 0) : x = 0 := by
  unfold crcBit at h
  split_ifs at h with hodd
  · have heq : x >>> 1 = kPolynomial := Nat.xor_eq_zero_iff.mp h
    rw [Nat.shiftRight_one] at heq
    unfold kPolynomial at heq
    omega
  · rw [Nat.shiftRight_one] at h
    omega

theorem eq_zero_of_crcBit_iterate : ∀ {k x : ℕ}, x < 2 ^ 32 → crcBit^[k] x = 0 → x = 0 := by
  intro k
  induction k with
  | zero => exact fun _ h => h
  | succ k ih =>
    intro x hx h
    exact eq_zero_of_crcBit hx (ih (crcBit_lt hx) h)

/-- Two turns that come to the same word began with the same word and byte, up to
    exclusive or. -/
theorem crcByte_cancel {a b : ℕ} {c c' : UInt8} (ha : a < 2 ^ 32) (hb : b < 2 ^ 32)
    (h : crcByte a c = crcByte b c') : a ^^^ c.toNat = b ^^^ c'.toNat := by
  have hbyte : ∀ c : UInt8, c.toNat < 2 ^ 32 := fun c => c.toNat_lt.trans (by decide)
  rw [crcByte_eq_iterate, crcByte_eq_iterate] at h
  have hzero : crcBit^[8] ((a ^^^ c.toNat) ^^^ (b ^^^ c'.toNat)) = 0 := by
    rw [crcBit_iterate_xor, h, Nat.xor_self]
  exact Nat.xor_eq_zero_iff.mp (eq_zero_of_crcBit_iterate
    (Nat.xor_lt_two_pow (Nat.xor_lt_two_pow ha (hbyte c)) (Nat.xor_lt_two_pow hb (hbyte c'))) hzero)

/-- The bytes that follow keep two words apart. -/
theorem foldl_crcByte_injOn {data : Bytes} :
    ∀ {a b : ℕ}, a < 2 ^ 32 → b < 2 ^ 32 → data.foldl crcByte a = data.foldl crcByte b → a = b := by
  induction data with
  | nil => exact fun _ _ h => h
  | cons c data ih =>
    intro a b ha hb h
    have hstep := ih (crcByte_lt ha c) (crcByte_lt hb c) h
    exact Nat.xor_left_inj.mp (crcByte_cancel ha hb hstep)

/-- **One changed byte changes the checksum**, wherever it is in a message of any length. -/
theorem crc32cExtend_set {crc i : ℕ} {data : Bytes} {byte : UInt8} (hcrc : crc < 2 ^ 32)
    (hi : i < data.length) (hne : byte ≠ data[i]) :
    crc32cExtend crc (data.set i byte) ≠ crc32cExtend crc data := by
  intro heq
  have hfold := Nat.xor_left_inj.mp heq
  have hdata : data = data.take i ++ data[i] :: data.drop (i + 1) := by
    rw [List.cons_getElem_drop_succ, List.take_append_drop]
  have hset : data.set i byte = data.take i ++ byte :: data.drop (i + 1) :=
    List.set_eq_take_append_cons_drop.trans (if_pos hi)
  have hstart : (data.take i).foldl crcByte (crc ^^^ 0xFFFFFFFF) < 2 ^ 32 :=
    foldl_crcByte_lt (Nat.xor_lt_two_pow hcrc (by decide))
  rw [hset] at hfold
  conv at hfold => rhs; rw [hdata]
  rw [List.foldl_append, List.foldl_append, List.foldl_cons, List.foldl_cons] at hfold
  have hbyte := foldl_crcByte_injOn (crcByte_lt hstart byte) (crcByte_lt hstart data[i]) hfold
  exact hne (UInt8.toNat_inj.mp (Nat.xor_right_inj.mp (crcByte_cancel hstart hstart hbyte)))

theorem putFixed_decodeFixed : ∀ b : Bytes, putFixed b.length (decodeFixed b) = b
  | [] => rfl
  | byte :: b => by
    have hb := byte.toNat_lt
    have h1 : (byte.toNat + 256 * decodeFixed b) % 256 = byte.toNat := by omega
    have h2 : (byte.toNat + 256 * decodeFixed b) / 256 = decodeFixed b := by omega
    rw [List.length_cons, decodeFixed, putFixed, h1, h2, putFixed_decodeFixed b,
      UInt8.ofNat_toNat]

end Ambar
