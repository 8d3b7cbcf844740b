import Ambar.Format.Encoding
import Ambar.Lib.Parts

/-!
# Building blocks

`BlockBuilder` (`src/block_builder.cpp`): each entry stores what its key does not share
with the key before it, and every so many entries a restart point stores its key whole.
`decode_entry` (`src/block.cpp`) reads the lengths of an entry back.

* `decodeEntry_entryBytes`: an entry is read back.
* `Layout`: entries as chunks of bytes, and the entries at restart points.
* `BlockBuilder.Holds.add`, `BlockBuilder.Holds.foldl_add`: adding entries.
-/

namespace Ambar

open Lib (offsetAt)

/-- A key and a value of a block. -/
abbrev KeyValue := Bytes × Bytes

/-! ## Entries -/

/-- How much two keys share from the front (`src/block_builder.cpp`, lines 45–48). -/
def sharedLength : (lastKey key : Bytes) → ℕ
  | a :: lastKey, b :: key => if a = b then sharedLength lastKey key + 1 else 0
  | _, _ => 0

/-- The bytes of an entry (lines 56–62); the lengths are cut to `uint32_t`. -/
def entryBytes (shared : ℕ) (key value : Bytes) : Bytes :=
  putVarint (shared % 2 ^ 32) ++ putVarint ((key.length - shared) % 2 ^ 32) ++
    putVarint (value.length % 2 ^ 32) ++ key.drop shared ++ value

/-- The header of an entry, as `decode_entry` reads it. -/
structure EntryHeader where
  shared : ℕ
  nonShared : ℕ
  valueLength : ℕ

/-- The three lengths (`src/block.cpp`, lines 58–71), and the bytes after them. -/
def decodeLengths (p : Bytes) : Option (EntryHeader × Bytes) :=
  let shared := (p.getD 0 0).toNat
  let nonShared := (p.getD 1 0).toNat
  let valueLength := (p.getD 2 0).toNat
  if shared ||| nonShared ||| valueLength < 128 then
    some (⟨shared, nonShared, valueLength⟩, p.drop 3)
  else do
    let (shared, p) ← getVarint32 p
    let (nonShared, p) ← getVarint32 p
    let (valueLength, p) ← getVarint32 p
    some (⟨shared, nonShared, valueLength⟩, p)

/-- `decode_entry` (lines 54–84) on the bytes up to the limit. -/
def decodeEntry (p : Bytes) : Option (EntryHeader × Bytes) :=
  if p.length < 3 then none
  else do
    let (h, p) ← decodeLengths p
    if p.length < h.nonShared + h.valueLength then none else some (h, p)

theorem sharedLength_spec : ∀ lastKey key : Bytes,
    sharedLength lastKey key ≤ lastKey.length ∧ sharedLength lastKey key ≤ key.length ∧
      lastKey.take (sharedLength lastKey key) = key.take (sharedLength lastKey key)
  | [], key => by simp [sharedLength]
  | _ :: _, [] => by simp [sharedLength]
  | a :: lastKey, b :: key => by
    rw [sharedLength]
    split_ifs with hab
    · obtain ⟨h1, h2, h3⟩ := sharedLength_spec lastKey key
      rw [List.take_succ_cons, List.take_succ_cons, h3, hab, List.length_cons, List.length_cons]
      exact ⟨by omega, by omega, rfl⟩
    · simp

theorem putVarint_of_lt {n : ℕ} (h : n < 128) : putVarint n = [UInt8.ofNat n] := by
  rw [putVarint, if_pos h]

theorem putVarint_head {n : ℕ} (h : ¬ n < 128) :
    ∃ byte rest, putVarint n = byte :: rest ∧ 128 ≤ byte.toNat := by
  refine ⟨_, _, by rw [putVarint, if_neg h], ?_⟩
  rw [UInt8.toNat_ofNat']
  omega

/-- The three lengths of an entry are read back, by the one way or the other. -/
theorem decodeLengths_put {a b c : ℕ} (ha : a < 2 ^ 32) (hb : b < 2 ^ 32) (hc : c < 2 ^ 32)
    (rest : Bytes) :
    decodeLengths (putVarint a ++ putVarint b ++ putVarint c ++ rest) = some (⟨a, b, c⟩, rest) := by
  have hof : ∀ n < 128, (UInt8.ofNat n).toNat = n := by
    intro n hn
    rw [UInt8.toNat_ofNat']
    omega
  by_cases hsmall : a < 128 ∧ b < 128 ∧ c < 128
  · obtain ⟨ha', hb', hc'⟩ := hsmall
    have hor : a ||| b ||| c < 128 := Nat.or_lt_two_pow (n := 7) (Nat.or_lt_two_pow (n := 7) ha' hb') hc'
    unfold decodeLengths
    rw [putVarint_of_lt ha', putVarint_of_lt hb', putVarint_of_lt hc']
    simp only [List.cons_append, List.nil_append, List.getD_cons_zero, List.getD_cons_succ, hof a ha',
      hof b hb', hof c hc', if_pos hor]
    rfl
  · -- one of the first three bytes announces another
    generalize hp : putVarint a ++ putVarint b ++ putVarint c ++ rest = p
    have hbig : ¬ ((p.getD 0 0).toNat ||| (p.getD 1 0).toNat ||| (p.getD 2 0).toNat < 128) := by
      intro hlt
      have hle : ∀ x y : ℕ, x ≤ x ||| y ∧ y ≤ x ||| y := fun x y => ⟨Nat.left_le_or, Nat.right_le_or⟩
      have h0 := (hle (p.getD 0 0).toNat (p.getD 1 0).toNat)
      have h1 := (hle ((p.getD 0 0).toNat ||| (p.getD 1 0).toNat) (p.getD 2 0).toNat)
      rw [← hp] at hlt h0 h1
      by_cases ha' : a < 128
      · by_cases hb' : b < 128
        · have hc' : ¬ c < 128 := fun hc' => hsmall ⟨ha', hb', hc'⟩
          obtain ⟨byte, t, heq, hbyte⟩ := putVarint_head hc'
          rw [putVarint_of_lt ha', putVarint_of_lt hb', heq] at hlt h0 h1
          simp only [List.cons_append, List.nil_append, List.getD_cons_zero, List.getD_cons_succ]
            at hlt h0 h1
          omega
        · obtain ⟨byte, t, heq, hbyte⟩ := putVarint_head hb'
          rw [putVarint_of_lt ha', heq] at hlt h0 h1
          simp only [List.cons_append, List.nil_append, List.getD_cons_zero, List.getD_cons_succ]
            at hlt h0 h1
          omega
      · obtain ⟨byte, t, heq, hbyte⟩ := putVarint_head ha'
        rw [heq] at hlt h0 h1
        simp only [List.cons_append, List.getD_cons_zero] at hlt h0 h1
        omega
    unfold decodeLengths
    simp only
    rw [if_neg hbig, ← hp]
    simp only [List.append_assoc, getVarint32_put ha, getVarint32_put hb, getVarint32_put hc,
      Option.bind_eq_bind, Option.bind_some]

theorem length_entryBytes_ge (shared : ℕ) (key value : Bytes) :
    3 + (key.length - shared) + value.length ≤ (entryBytes shared key value).length := by
  have hpos : ∀ n, 1 ≤ (putVarint n).length := fun n => List.length_pos_iff.mpr (putVarint_ne_nil n)
  have h1 := hpos (shared % 2 ^ 32)
  have h2 := hpos ((key.length - shared) % 2 ^ 32)
  have h3 := hpos (value.length % 2 ^ 32)
  simp only [entryBytes, List.length_append, List.length_drop]
  omega

/-- **An entry is read back**: its lengths, and its bytes after them. -/
theorem decodeEntry_entryBytes {shared : ℕ} {key value : Bytes} (hkey : key.length < 2 ^ 32)
    (hshared : shared ≤ key.length) (hvalue : value.length < 2 ^ 32) (rest : Bytes) :
    decodeEntry (entryBytes shared key value ++ rest) =
      some (⟨shared, key.length - shared, value.length⟩, key.drop shared ++ value ++ rest) := by
  have hlen := length_entryBytes_ge shared key value
  unfold decodeEntry
  rw [if_neg (by rw [List.length_append]; omega)]
  have hbytes : entryBytes shared key value ++ rest = putVarint shared ++ putVarint (key.length - shared) ++
      putVarint value.length ++ (key.drop shared ++ value ++ rest) := by
    rw [entryBytes, Nat.mod_eq_of_lt (by omega), Nat.mod_eq_of_lt (by omega), Nat.mod_eq_of_lt hvalue]
    simp only [List.append_assoc]
  rw [hbytes, decodeLengths_put (by omega) (by omega) hvalue]
  simp only [Option.bind_eq_bind, Option.bind_some]
  rw [if_neg (by simp only [List.length_append, List.length_drop]; omega)]

/-! ## The builder -/

/-- `class BlockBuilder`. -/
structure BlockBuilder where
  buffer : Bytes
  restarts : List ℕ
  sinceRestart : ℕ
  entries : ℕ
  lastKey : Bytes

namespace BlockBuilder

/-- `reset` (lines 22–30). -/
def new : BlockBuilder := ⟨[], [0], 0, 0, []⟩

/-- `current_size_estimate` (lines 32–36). -/
def currentSizeEstimate (b : BlockBuilder) : ℕ := b.buffer.length + b.restarts.length * 4 + 4

/-- `add` (lines 38–67). -/
def add (restartInterval : ℕ) (b : BlockBuilder) (kv : KeyValue) : BlockBuilder :=
  let fresh := ¬ b.sinceRestart < restartInterval
  let shared := if fresh then 0 else sharedLength b.lastKey kv.1
  { buffer := b.buffer ++ entryBytes shared kv.1 kv.2
    restarts := if fresh then b.restarts ++ [b.buffer.length % 2 ^ 32] else b.restarts
    sinceRestart := (if fresh then 0 else b.sinceRestart) + 1
    entries := b.entries + 1
    lastKey := kv.1 }

/-- `finish` (lines 69–76). -/
def finish (b : BlockBuilder) : Bytes :=
  b.buffer ++ b.restarts.flatMap (putFixed 4) ++ putFixed 4 (b.restarts.length % 2 ^ 32)

end BlockBuilder

/-! ## Layout -/

/-- Entries laid out as chunks of bytes: `shared i` is what entry `i` shares with the one
    before it, `starts` are the entries at restart points. -/
structure Layout (kvs : List KeyValue) (chunks : List Bytes) (shared : ℕ → ℕ) (starts : List ℕ) :
    Prop where
  length : chunks.length = kvs.length
  chunk : ∀ i kv, kvs[i]? = some kv →
    chunks[i]? = some (entryBytes (shared i) kv.1 kv.2) ∧ shared i ≤ kv.1.length
  shared_eq : ∀ i last kv, kvs[i]? = some last → kvs[i + 1]? = some kv →
    shared (i + 1) ≤ last.1.length ∧ last.1.take (shared (i + 1)) = kv.1.take (shared (i + 1))
  starts_head : starts.head? = some 0
  starts_sorted : starts.Pairwise (· < ·)
  starts_lt : ∀ i ∈ starts, i < kvs.length ∨ i = 0
  starts_shared : ∀ i ∈ starts, shared i = 0

theorem layout_nil : Layout [] [] (fun _ => 0) [0] where
  length := rfl
  chunk := fun _ _ h => by simp at h
  shared_eq := fun _ _ _ h => by simp at h
  starts_head := rfl
  starts_sorted := List.pairwise_singleton _ _
  starts_lt := fun _ hi => Or.inr (List.mem_singleton.mp hi)
  starts_shared := fun _ _ => rfl

section

variable {kvs : List KeyValue} {chunks : List Bytes} {shared : ℕ → ℕ} {starts : List ℕ}

/-- One more entry, which shares `n` bytes with the last one. -/
theorem Layout.append (h : Layout kvs chunks shared starts) (kv : KeyValue) {n : ℕ}
    (hn : n ≤ kv.1.length) (hlast : ∀ last ∈ kvs.getLast?, n ≤ last.1.length ∧
      last.1.take n = kv.1.take n) (hzero : kvs = [] → n = 0) :
    Layout (kvs ++ [kv]) (chunks ++ [entryBytes n kv.1 kv.2])
      (fun i => if i = kvs.length then n else shared i) starts := by
  have hlen := h.length
  have hget : ∀ i x, (kvs ++ [kv])[i]? = some x →
      i < kvs.length ∧ kvs[i]? = some x ∨ i = kvs.length ∧ x = kv := by
    intro i x hx
    by_cases hi : i < kvs.length
    · exact Or.inl ⟨hi, by rwa [List.getElem?_append_left hi] at hx⟩
    · rw [List.getElem?_append_right (by omega), List.getElem?_singleton] at hx
      split_ifs at hx with h0
      exact Or.inr ⟨by omega, (Option.some.inj hx).symm⟩
  refine ⟨by simp [hlen], fun i x hx => ?_, fun i last x hlast' hx => ?_, h.starts_head, h.starts_sorted,
    fun i hi => ?_, fun i hi => ?_⟩
  · rcases hget i x hx with ⟨hi, hx⟩ | ⟨rfl, rfl⟩
    · simp only [if_neg (by omega : i ≠ kvs.length)]
      rw [List.getElem?_append_left (by omega)]
      exact h.chunk i x hx
    · simp only [if_true]
      rw [List.getElem?_append_right (by omega), hlen, Nat.sub_self]
      exact ⟨rfl, hn⟩
  · rcases hget i last hlast' with ⟨hi, hprev⟩ | ⟨rfl, rfl⟩
    · rcases hget (i + 1) x hx with ⟨hi', hx⟩ | ⟨hi', rfl⟩
      · simp only [if_neg (by omega : i + 1 ≠ kvs.length)]
        exact h.shared_eq i last x hprev hx
      · simp only [if_pos hi']
        refine hlast last ?_
        rw [List.getLast?_eq_getElem?, show kvs.length - 1 = i by omega]
        exact hprev
    · rcases hget (kvs.length + 1) x hx with ⟨hi', -⟩ | ⟨hi', -⟩ <;> omega
  · rw [List.length_append]
    rcases h.starts_lt i hi with hi | hi
    · exact Or.inl (by omega)
    · exact Or.inr hi
  · show (if i = kvs.length then n else shared i) = 0
    split_ifs with hi'
    · rcases h.starts_lt i hi with hlt | hi0
      · omega
      · exact hzero (List.length_eq_zero_iff.mp (by omega))
    · exact h.starts_shared i hi

theorem Layout.exists_entry (h : Layout kvs chunks shared starts) {i : ℕ} (hi : i < kvs.length) :
    ∃ (hc : i < chunks.length) (kv : KeyValue), kvs[i]? = some kv ∧
      chunks[i] = entryBytes (shared i) kv.1 kv.2 ∧ shared i ≤ kv.1.length := by
  have hc : i < chunks.length := h.length ▸ hi
  obtain ⟨kv, hkv⟩ : ∃ kv, kvs[i]? = some kv := ⟨_, List.getElem?_eq_getElem hi⟩
  obtain ⟨hchunk, hle⟩ := h.chunk i kv hkv
  rw [List.getElem?_eq_getElem hc] at hchunk
  exact ⟨hc, kv, hkv, Option.some.inj hchunk, hle⟩

theorem Layout.chunk_ne_nil (h : Layout kvs chunks shared starts) : ∀ p ∈ chunks, p ≠ [] := by
  intro p hp hnil
  obtain ⟨i, hi, rfl⟩ := List.mem_iff_getElem.mp hp
  obtain ⟨_, kv, -, hchunk, -⟩ := h.exists_entry (h.length ▸ hi)
  have := length_entryBytes_ge (shared i) kv.1 kv.2
  rw [← hchunk, hnil, List.length_nil] at this
  omega

/-- Offsets are in the order of the entries. -/
theorem Layout.offset_lt_iff (h : Layout kvs chunks shared starts) {i j : ℕ} (hj : j ≤ kvs.length) :
    offsetAt chunks i < offsetAt chunks j ↔ i < j := by
  constructor
  · intro hlt
    by_contra hge
    exact absurd (Lib.offsetAt_mono (not_lt.mp hge)) (not_le.mpr hlt)
  · intro hlt
    exact Lib.offsetAt_strictMono h.chunk_ne_nil hlt (h.length ▸ hj)

theorem Layout.start_lt (h : Layout kvs chunks shared starts) (hne : kvs ≠ []) {m : ℕ}
    (hm : m ∈ starts) : m < kvs.length := by
  have := List.length_pos_iff.mpr hne
  rcases h.starts_lt m hm with hlt | hzero
  · exact hlt
  · omega

/-- The last entry becomes a restart point. -/
theorem Layout.restart (h : Layout kvs chunks shared starts) {i : ℕ} (hi : i + 1 = kvs.length)
    (hstarts : ∀ j ∈ starts, j < i) (hshared : shared i = 0) :
    Layout kvs chunks shared (starts ++ [i]) := by
  refine ⟨h.length, h.chunk, h.shared_eq, ?_, ?_, fun j hj => ?_, fun j hj => ?_⟩
  · rw [List.head?_append, h.starts_head]
    rfl
  · rw [List.pairwise_append]
    refine ⟨h.starts_sorted, List.pairwise_singleton _ _, fun j hj k hk => ?_⟩
    rw [List.mem_singleton.mp hk]
    exact hstarts j hj
  · rcases List.mem_append.mp hj with hj | hj
    · exact h.starts_lt j hj
    · rw [List.mem_singleton.mp hj]
      exact Or.inl (by omega)
  · rcases List.mem_append.mp hj with hj | hj
    · exact h.starts_shared j hj
    · rw [List.mem_singleton.mp hj]
      exact hshared

end

/-- The entries a builder holds. -/
structure BlockBuilder.Holds (b : BlockBuilder) (kvs : List KeyValue) (chunks : List Bytes)
    (shared : ℕ → ℕ) (starts : List ℕ) : Prop where
  layout : Layout kvs chunks shared starts
  buffer : b.buffer = chunks.flatten
  restarts : b.restarts = starts.map fun i => offsetAt chunks i % 2 ^ 32
  entries : b.entries = kvs.length
  lastKey : b.lastKey = (kvs.getLast?.map Prod.fst).getD []
  since : kvs = [] → b.sinceRestart = 0

namespace BlockBuilder

variable {b : BlockBuilder} {kvs : List KeyValue} {chunks : List Bytes} {shared : ℕ → ℕ}
  {starts : List ℕ}

theorem holds_new : Holds new [] [] (fun _ => 0) [0] := ⟨layout_nil, rfl, rfl, rfl, rfl, fun _ => rfl⟩

/-- **Adding an entry.** -/
theorem Holds.add (h : Holds b kvs chunks shared starts) {restartInterval : ℕ}
    (hinterval : 1 ≤ restartInterval) (kv : KeyValue) :
    ∃ chunks' shared' starts', Holds (b.add restartInterval kv) (kvs ++ [kv]) chunks' shared' starts' := by
  have hlast : ((kvs ++ [kv]).getLast?.map Prod.fst).getD [] = kv.1 := by simp
  have hoffsets : ∀ chunk : Bytes, (starts.map fun i => offsetAt chunks i % 2 ^ 32) =
      starts.map fun i => offsetAt (chunks ++ [chunk]) i % 2 ^ 32 := by
    intro chunk
    refine List.map_congr_left fun i hi => ?_
    rw [Lib.offsetAt_append]
    rw [h.layout.length]
    rcases h.layout.starts_lt i hi with hi | hi <;> omega
  unfold BlockBuilder.add
  by_cases hfresh : b.sinceRestart < restartInterval
  · -- within a restart interval: what is shared with the key before
    obtain ⟨h1, h2, h3⟩ := sharedLength_spec b.lastKey kv.1
    have hprev : ∀ last ∈ kvs.getLast?, last.1 = b.lastKey := by
      intro last hmem
      rw [h.lastKey, hmem]
      rfl
    have hlayout := h.layout.append kv h2 (fun last hmem => by
      rw [hprev last hmem]
      exact ⟨h1, h3⟩) (fun hnil => by
      rw [h.lastKey, hnil]
      rfl)
    refine ⟨_, _, _, hlayout, ?_, ?_, ?_, hlast.symm, fun hnil => by simp at hnil⟩
    · simp [hfresh, h.buffer]
    · simp only [hfresh, not_true_eq_false, if_false]
      rw [h.restarts]
      exact hoffsets _
    · simp [h.entries]
  · -- a restart point: the key whole
    have hne : kvs ≠ [] := fun hnil => hfresh (by rw [h.since hnil]; omega)
    have hlayout := (h.layout.append kv (Nat.zero_le _) (fun _ _ => ⟨Nat.zero_le _, rfl⟩)
      (fun _ => rfl)).restart (i := kvs.length) (by simp)
      (fun j hj => by
        have := List.length_pos_iff.mpr hne
        rcases h.layout.starts_lt j hj with hj | hj <;> omega) (if_pos rfl)
    refine ⟨_, _, _, hlayout, ?_, ?_, ?_, hlast.symm, fun hnil => by simp at hnil⟩
    · simp [hfresh, h.buffer]
    · simp only [hfresh, not_false_eq_true, if_true]
      rw [h.restarts, List.map_append, List.map_singleton, ← hoffsets, h.buffer, ← h.layout.length,
        Lib.offsetAt_append le_rfl, Lib.offsetAt_length]
    · simp [h.entries]

/-- **Adding entries one after the other.** -/
theorem Holds.foldl_add {restartInterval : ℕ} (hinterval : 1 ≤ restartInterval) (more : List KeyValue) :
    ∀ {b : BlockBuilder} {kvs : List KeyValue} {chunks : List Bytes} {shared : ℕ → ℕ}
      {starts : List ℕ}, Holds b kvs chunks shared starts →
      ∃ chunks' shared' starts',
        Holds (more.foldl (BlockBuilder.add restartInterval) b) (kvs ++ more) chunks' shared' starts' := by
  induction more with
  | nil => exact fun h => ⟨_, _, _, by rwa [List.append_nil]⟩
  | cons kv more ih =>
    intro b kvs chunks shared starts h
    obtain ⟨chunks', shared', starts', h'⟩ := h.add hinterval kv
    obtain ⟨chunks'', shared'', starts'', h''⟩ := ih h'
    exact ⟨chunks'', shared'', starts'', by rwa [List.append_assoc] at h''⟩

end BlockBuilder

end Ambar
