import Ambar.Format.InternalKey

/-!
# Integers and byte strings on disk

Models of `src/encoding.hpp` and `src/encoding.cpp`. A `uint32_t` or `uint64_t`
is a natural number; the readers cut every shifted group of bits to the width of
the type, as the code does.

* `getVarint64_put`, `getVarint32_put`: reading back a written number.
* `getLengthPrefixed_put`: reading back a written byte string.
* `InternalKey.ofBytes_toBytes`: an internal key and its bytes.
-/

namespace Ambar

/-- `class Status` (`include/ambar/status.hpp`): what an operation answers. -/
inductive Status where
  | ok
  | notFound (message : String)
  | corruption (message : String)
  | ioError (message : String)
  | invalidArgument (message : String)
  | notSupported (message : String)
deriving DecidableEq, Repr

/-- `message`. -/
def Status.message : Status → String
  | .ok => ""
  | .notFound m | .corruption m | .ioError m | .invalidArgument m | .notSupported m => m

/-- Bytes as they stand in a message. -/
def Bytes.toMessage (b : Bytes) : String := String.ofList (b.map fun c => Char.ofNat c.toNat)

/-- The bytes of a name the code writes out. -/
def Bytes.ofName (name : String) : Bytes := name.toList.map fun c => UInt8.ofNat c.toNat

/-! ## Variable-length integers -/

/-- `put_varint32` and `put_varint64` (`src/encoding.cpp`, lines 9–23). -/
def putVarint (value : ℕ) : Bytes :=
  if value < 128 then [UInt8.ofNat value]
  else UInt8.ofNat (value % 128 + 128) :: putVarint (value / 128)
termination_by value

/-- `get_varint<T>` (lines 30–47) for a `T` of `width` bits: the number and the
    input after it, or `none` where the code returns false. -/
def getVarint (width : ℕ) : (maxBytes shift result : ℕ) → Bytes → Option (ℕ × Bytes)
  | 0, _, _, _ => none
  | _ + 1, _, _, [] => none
  | maxBytes + 1, shift, result, byte :: input =>
    let result := result ||| ((byte.toNat % 128) <<< shift) % 2 ^ width
    if byte.toNat < 128 then some (result, input)
    else getVarint width maxBytes (shift + 7) result input

/-- `get_varint32` (lines 51–53). -/
def getVarint32 (input : Bytes) : Option (ℕ × Bytes) := getVarint 32 5 0 0 input

/-- `get_varint64` (lines 55–57). -/
def getVarint64 (input : Bytes) : Option (ℕ × Bytes) := getVarint 64 10 0 0 input

theorem or_shiftLeft_of_lt {r n shift : ℕ} (hr : r < 2 ^ shift) :
    r ||| n <<< shift = r + n * 2 ^ shift := by
  rw [Nat.shiftLeft_eq, Nat.or_comm, mul_comm, ← Nat.two_pow_add_eq_or_of_lt hr]
  omega

/-- One more group of seven bits. -/
theorem or_group_lt {r n shift : ℕ} (hr : r < 2 ^ shift) :
    r ||| (n % 128) <<< shift < 2 ^ (shift + 7) := by
  rw [or_shiftLeft_of_lt hr, pow_add]
  have h1 : n % 128 ≤ 127 := by omega
  have h2 : n % 128 * 2 ^ shift ≤ 127 * 2 ^ shift := Nat.mul_le_mul_right _ h1
  omega

theorem getVarint_put (width : ℕ) :
    ∀ (k shift r n : ℕ) (rest : Bytes), r < 2 ^ shift → n < 2 ^ (7 * (k + 1)) →
      n * 2 ^ shift < 2 ^ width →
      getVarint width (k + 1) shift r (putVarint n ++ rest) = some (r + n * 2 ^ shift, rest) := by
  -- the last group ends the number; before it the rest is read seven bits higher
  have hlast : ∀ (k shift r n : ℕ) (rest : Bytes), r < 2 ^ shift → n < 128 →
      n * 2 ^ shift < 2 ^ width →
      getVarint width (k + 1) shift r (putVarint n ++ rest) = some (r + n * 2 ^ shift, rest) := by
    intro k shift r n rest hr hn hw
    have hb : (UInt8.ofNat n).toNat = n := by
      rw [UInt8.toNat_ofNat']
      omega
    rw [putVarint, if_pos hn, List.singleton_append, getVarint, hb, Nat.mod_eq_of_lt hn,
      if_pos hn, Nat.mod_eq_of_lt (by rwa [Nat.shiftLeft_eq]), or_shiftLeft_of_lt hr]
  intro k
  induction k with
  | zero => exact fun shift r n rest hr hn hw => hlast 0 shift r n rest hr (by omega) hw
  | succ k ih =>
    intro shift r n rest hr hn hw
    by_cases hlt : n < 128
    · exact hlast (k + 1) shift r n rest hr hlt hw
    · have hb : (UInt8.ofNat (n % 128 + 128)).toNat = n % 128 + 128 := by
        rw [UInt8.toNat_ofNat']
        omega
      have hdiv : n / 128 * 2 ^ (shift + 7) + n % 128 * 2 ^ shift = n * 2 ^ shift := by
        rw [pow_add, show (2 : ℕ) ^ 7 = 128 by norm_num,
          show n / 128 * (2 ^ shift * 128) + n % 128 * 2 ^ shift =
            (128 * (n / 128) + n % 128) * 2 ^ shift by ring, Nat.div_add_mod]
      have hpow : (2 : ℕ) ^ (7 * (k + 1 + 1)) = 128 * 2 ^ (7 * (k + 1)) := by
        rw [show 7 * (k + 1 + 1) = 7 + 7 * (k + 1) by ring, pow_add]
        norm_num
      rw [putVarint, if_neg hlt, List.cons_append, getVarint]
      simp only [hb]
      rw [if_neg (by omega), show (n % 128 + 128) % 128 = n % 128 by omega,
        Nat.mod_eq_of_lt (by rw [Nat.shiftLeft_eq]; omega), ih (shift + 7) _ _ _ (or_group_lt hr)
          (by omega) (by omega), or_shiftLeft_of_lt hr]
      congr 2
      omega

theorem getVarint64_put {n : ℕ} (hn : n < 2 ^ 64) (rest : Bytes) :
    getVarint64 (putVarint n ++ rest) = some (n, rest) := by
  have := getVarint_put 64 9 0 0 n rest (by norm_num) (by omega) (by omega)
  simpa [getVarint64] using this

theorem getVarint32_put {n : ℕ} (hn : n < 2 ^ 32) (rest : Bytes) :
    getVarint32 (putVarint n ++ rest) = some (n, rest) := by
  have := getVarint_put 32 4 0 0 n rest (by norm_num) (by omega) (by omega)
  simpa [getVarint32] using this

theorem putVarint_ne_nil (n : ℕ) : putVarint n ≠ [] := by
  rw [putVarint]
  split_ifs <;> simp

/-- A number of `7 * (k + 1)` bits takes at most `k + 1` bytes. -/
theorem length_putVarint_le : ∀ {k n : ℕ}, n < 2 ^ (7 * (k + 1)) → (putVarint n).length ≤ k + 1 := by
  intro k
  induction k with
  | zero =>
    intro n hn
    rw [putVarint, if_pos (by omega)]
    rfl
  | succ k ih =>
    intro n hn
    rw [putVarint]
    split_ifs with h
    · rw [List.length_singleton]
      omega
    · have hdiv : n / 128 < 2 ^ (7 * (k + 1)) := by
        rw [show 7 * (k + 1 + 1) = 7 * (k + 1) + 7 by ring, pow_add] at hn
        omega
      rw [List.length_cons]
      have := ih hdiv
      omega

/-! ## Length-prefixed byte strings -/

/-- `put_length_prefixed` (lines 59–62); the length is cut to a `uint32_t`. -/
def putLengthPrefixed (value : Bytes) : Bytes := putVarint (value.length % 2 ^ 32) ++ value

/-- `get_length_prefixed` (lines 64–75). -/
def getLengthPrefixed (input : Bytes) : Option (Bytes × Bytes) := do
  let (length, input) ← getVarint32 input
  if input.length < length then none else some (input.take length, input.drop length)

theorem getLengthPrefixed_put {value : Bytes} (h : value.length < 2 ^ 32) (rest : Bytes) :
    getLengthPrefixed (putLengthPrefixed value ++ rest) = some (value, rest) := by
  unfold getLengthPrefixed putLengthPrefixed
  rw [Nat.mod_eq_of_lt h, List.append_assoc, getVarint32_put h]
  simp

/-! ## Fixed-width integers and internal keys -/

/-- `put_fixed32` (`src/encoding.hpp`, lines 48–52) and `put_fixed64` (lines 54–58) for
    4 and 8 bytes: little-endian. -/
def putFixed : (bytes value : ℕ) → Bytes
  | 0, _ => []
  | bytes + 1, value => UInt8.ofNat (value % 256) :: putFixed bytes (value / 256)

/-- `decode_fixed32` (lines 60–65) and `decode_fixed64` (lines 67–73) on the bytes
    they read. -/
def decodeFixed : Bytes → ℕ
  | [] => 0
  | byte :: p => byte.toNat + 256 * decodeFixed p

@[simp] theorem length_putFixed (bytes n : ℕ) : (putFixed bytes n).length = bytes := by
  induction bytes generalizing n with
  | zero => rfl
  | succ bytes ih => simp [putFixed, ih]

theorem decodeFixed_put {bytes n : ℕ} (h : n < 256 ^ bytes) :
    decodeFixed (putFixed bytes n) = n := by
  induction bytes generalizing n with
  | zero =>
    have : n = 0 := by simpa using h
    simp [putFixed, decodeFixed, this]
  | succ bytes ih =>
    have hdiv : n / 256 < 256 ^ bytes := by
      rw [pow_succ] at h
      exact Nat.div_lt_of_lt_mul (by omega)
    have hb : (UInt8.ofNat (n % 256)).toNat = n % 256 := by
      rw [UInt8.toNat_ofNat']
      omega
    rw [putFixed, decodeFixed, ih hdiv, hb]
    omega

/-- The words of an array of `uint32_t`, each found at its place. -/
theorem decodeFixed_array {words : List ℕ} (h : ∀ w ∈ words, w < 2 ^ 32) (rest : Bytes) :
    ∀ {i : ℕ} (hi : i < words.length),
      decodeFixed (((words.flatMap (putFixed 4) ++ rest).drop (i * 4)).take 4) = words[i] := by
  induction words with
  | nil => exact fun hi => absurd hi (Nat.not_lt_zero _)
  | cons w words ih =>
    intro i hi
    rw [List.flatMap_cons, List.append_assoc]
    cases i with
    | zero =>
      rw [Nat.zero_mul, List.drop_zero, List.take_left' (length_putFixed 4 w),
        @decodeFixed_put 4 w (by have := h w List.mem_cons_self; omega)]
      rfl
    | succ i =>
      rw [Nat.succ_mul, Nat.add_comm, ← List.drop_drop, List.drop_left' (length_putFixed 4 w)]
      exact ih (fun v hv => h v (List.mem_cons_of_mem _ hv)) (by simpa using hi)

theorem length_array (words : List ℕ) : (words.flatMap (putFixed 4)).length = words.length * 4 := by
  induction words with
  | nil => rfl
  | cons w words ih =>
    rw [List.flatMap_cons, List.length_append, length_putFixed, ih, List.length_cons]
    omega

/-- The bytes of an internal key: `append_internal_key` (`src/dbformat.hpp`,
    lines 52–55). -/
def InternalKey.toBytes (k : InternalKey) : Bytes := k.userKey ++ putFixed 8 k.trailer

/-- `extract_user_key` (`src/dbformat.hpp`, lines 67–69) of an internal key's bytes. -/
def extractUserKey (internalKey : Bytes) : Bytes := internalKey.take (internalKey.length - 8)

/-- The internal key a byte string is, where it is long enough to be one. -/
def InternalKey.ofBytes (b : Bytes) : Option InternalKey :=
  if b.length < 8 then none
  else some ⟨b.take (b.length - 8), decodeFixed (b.drop (b.length - 8))⟩

theorem InternalKey.ofBytes_toBytes {k : InternalKey} (h : k.trailer < 2 ^ 64) :
    InternalKey.ofBytes k.toBytes = some k := by
  have hlen : k.toBytes.length = k.userKey.length + 8 := by
    simp [InternalKey.toBytes]
  rw [InternalKey.ofBytes, if_neg (by omega), hlen, Nat.add_sub_cancel]
  simp [InternalKey.toBytes, @decodeFixed_put 8 k.trailer (by omega)]

end Ambar
