import Ambar.Format.Encoding
import Ambar.Lib.BitArray
import Ambar.Lib.Parts

/-!
# Filter blocks

A table's filter block (`src/filter_block.cpp`) holds one filter for every region of
2 KiB of the data; a lookup asks the filter of the region where a data block starts.
`BloomFilterPolicy` (`src/bloom.cpp`) makes a filter of keys, and `InternalFilterPolicy`
(`src/internal_filter_policy.cpp`) makes one of the user keys of internal keys. The
number of probes, which the code takes from a product of floating-point numbers, is any.

* `FilterPolicy.Sound`, `bloomFilterPolicy_sound`: a filter knows the keys it was made of.
* `FilterBlockBuilder.Holds`: the regions of a filter block and the keys in each.
* `keyMayMatch_finish`: the filter a lookup asks knows the keys of its block.
-/

namespace Ambar

open Lib (hasBit addAll offsetAt)

/-! ## Hashes -/

/-- `fmix64` (`src/hash.hpp`). -/
def fmix64 (h : UInt64) : UInt64 :=
  let h := h ^^^ (h >>> 33)
  let h := h * 0xff51afd7ed558ccd
  let h := h ^^^ (h >>> 33)
  let h := h * 0xc4ceb9fe1a85ec53
  h ^^^ (h >>> 33)

def kPrime : UInt64 := 0x9e3779b97f4a7c15

/-- The words of `hash64`: the state, and the bytes that make no whole word; at most
    `turns` turns. -/
def hashWords : (turns : ℕ) → UInt64 → Bytes → UInt64 × Bytes
  | 0, h, data => (h, data)
  | turns + 1, h, data =>
    if 8 ≤ data.length then
      let h := h ^^^ UInt64.ofNat (decodeFixed (data.take 8))
      let h := h * kPrime
      let h := h ^^^ (h >>> 29)
      hashWords turns h (data.drop 8)
    else (h, data)

/-- `hash64`; the tail is assembled little-endian, as the words are. -/
def hash64 (key : Bytes) : UInt64 :=
  let (h, tail) := hashWords key.length
    (kPrime ^^^ (UInt64.ofNat key.length * 0xff51afd7ed558ccd)) key
  fmix64 ((h ^^^ UInt64.ofNat (decodeFixed tail)) * kPrime)

/-- `bloom_hash`. -/
def bloomHash (key : Bytes) : UInt32 := (hash64 key >>> 32).toUInt32

/-! ## Policies -/

/-- `class FilterPolicy`: the bytes `create_filter` appends, and what a filter answers. -/
structure FilterPolicy where
  name : String
  createFilter : (keys : List Bytes) → Bytes
  keyMayMatch : (key filter : Bytes) → Bool

/-- The policy never denies a key that was added, nor one it takes for the same. -/
def FilterPolicy.Sound (P : FilterPolicy) (sees : Bytes → Bytes) : Prop :=
  ∀ keys : List Bytes, ∀ key ∈ keys, ∀ key', sees key' = sees key →
    P.keyMayMatch key' (P.createFilter keys) = true

/-- The bit positions of a key (lines 50–61 and 78–84 of `src/bloom.cpp`). -/
def probeLoop (bits : ℕ) : (k : ℕ) → (h delta : UInt32) → List ℕ
  | 0, _, _ => []
  | k + 1, h, delta => h.toNat % bits :: probeLoop bits k (h + delta) delta

def probes (bits k : ℕ) (key : Bytes) : List ℕ :=
  let h := bloomHash key
  probeLoop bits k h ((h >>> 17) ||| (h <<< 15))

/-- The bytes of a filter's bit array (lines 33–40). -/
def filterBytes (numKeys bitsPerKey : ℕ) : ℕ := (max 64 (numKeys * bitsPerKey) + 7) / 8

/-- `BloomFilterPolicy` with `bits_per_key` and `k` probes (lines 17–91). -/
def bloomFilterPolicy (bitsPerKey k : ℕ) : FilterPolicy where
  name := "ambar.BuiltinBloomFilter2"
  createFilter := fun keys =>
    let bytes := filterBytes keys.length bitsPerKey
    addAll (probes (bytes * 8) k) keys (List.replicate bytes 0) ++ [UInt8.ofNat k]
  keyMayMatch := fun key filter =>
    if filter.length < 2 then true
    else
      let array := filter.take (filter.length - 1)
      let k := (filter.getD (filter.length - 1) 0).toNat
      if 30 < k then true
      else (probes ((filter.length - 1) * 8) k key).all (hasBit array)

/-- What `InternalFilterPolicy` filters by. -/
def filterKey (key : Bytes) : Bytes := if 8 ≤ key.length then extractUserKey key else key

/-- `InternalFilterPolicy` (`src/internal_filter_policy.cpp`). -/
def internalFilterPolicy (userPolicy : FilterPolicy) : FilterPolicy where
  name := userPolicy.name
  createFilter := fun keys => userPolicy.createFilter (keys.map filterKey)
  keyMayMatch := fun key filter => userPolicy.keyMayMatch (filterKey key) filter

theorem filterBytes_pos (numKeys bitsPerKey : ℕ) : 8 ≤ filterBytes numKeys bitsPerKey := by
  unfold filterBytes
  omega

theorem probeLoop_lt {bits : ℕ} (hbits : 0 < bits) {k : ℕ} :
    ∀ {h delta : UInt32}, ∀ i ∈ probeLoop bits k h delta, i < bits := by
  induction k with
  | zero => exact fun i hi => absurd hi List.not_mem_nil
  | succ k ih =>
    intro h delta i hi
    rcases List.mem_cons.mp hi with rfl | hi
    · exact Nat.mod_lt _ hbits
    · exact ih i hi

/-- **Bloom filters deny no key they were made of.** -/
theorem bloomFilterPolicy_sound {bitsPerKey k : ℕ} (hk : k ≤ 30) :
    (bloomFilterPolicy bitsPerKey k).Sound id := by
  rintro keys key hkey key' rfl
  have hpos := filterBytes_pos keys.length bitsPerKey
  simp only [bloomFilterPolicy]
  generalize filterBytes keys.length bitsPerKey = bytes at hpos ⊢
  generalize harray : addAll (probes (bytes * 8) k) keys (List.replicate bytes 0) = array
  have hlen : array.length = bytes := by
    rw [← harray, Lib.length_addAll, List.length_replicate]
  have hfilter : (array ++ [UInt8.ofNat k]).length = bytes + 1 := by
    rw [List.length_append, hlen, List.length_singleton]
  have hlast : ((array ++ [UInt8.ofNat k]).getD bytes 0).toNat = k := by
    rw [List.getD_eq_getElem?_getD, ← hlen, List.getElem?_append_right le_rfl, Nat.sub_self]
    show (UInt8.ofNat k).toNat = k
    rw [UInt8.toNat_ofNat']
    omega
  rw [if_neg (by omega), hfilter, Nat.add_sub_cancel, hlast, if_neg (by omega),
    List.take_left' hlen, List.all_eq_true]
  intro i hi
  have hlt : i < bytes * 8 := probeLoop_lt (by omega) i hi
  rw [← harray]
  exact Lib.hasBit_addAll (Or.inr ⟨⟨key', hkey, hi⟩, by rw [List.length_replicate]; omega⟩)

theorem internalFilterPolicy_sound {P : FilterPolicy} (h : P.Sound id) :
    (internalFilterPolicy P).Sound filterKey := by
  intro keys key hkey key' heq
  exact h (keys.map filterKey) (filterKey key) (List.mem_map_of_mem hkey) (filterKey key') heq

/-! ## Building a filter block -/

def kFilterBaseLog : ℕ := 11

/-- `class FilterBlockBuilder`; `keys` are the keys since the last filter. -/
structure FilterBlockBuilder where
  keys : List Bytes
  result : Bytes
  filterOffsets : List ℕ

namespace FilterBlockBuilder

def new : FilterBlockBuilder := ⟨[], [], []⟩

/-- `generate_filter` (lines 31–54). -/
def generateFilter (P : FilterPolicy) (b : FilterBlockBuilder) : FilterBlockBuilder :=
  let filterOffsets := b.filterOffsets ++ [b.result.length % 2 ^ 32]
  if b.keys = [] then { b with filterOffsets := filterOffsets }
  else ⟨[], b.result ++ P.createFilter b.keys, filterOffsets⟩

/-- The loop of `start_block` (lines 21–23); at most `turns` turns. -/
def startLoop (P : FilterPolicy) (wanted : ℕ) : (turns : ℕ) → FilterBlockBuilder → FilterBlockBuilder
  | 0, b => b
  | turns + 1, b =>
    if b.filterOffsets.length < wanted then startLoop P wanted turns (b.generateFilter P) else b

/-- `start_block` (lines 12–24). -/
def startBlock (P : FilterPolicy) (blockOffset : ℕ) (b : FilterBlockBuilder) : FilterBlockBuilder :=
  let wanted := blockOffset >>> kFilterBaseLog
  startLoop P wanted wanted b

/-- `add_key` (lines 26–29). -/
def addKey (b : FilterBlockBuilder) (key : Bytes) : FilterBlockBuilder :=
  { b with keys := b.keys ++ [key] }

/-- `finish` (lines 56–68). -/
def finish (P : FilterPolicy) (b : FilterBlockBuilder) : Bytes :=
  let b := if b.keys ≠ [] then b.generateFilter P else b
  b.result ++ b.filterOffsets.flatMap (putFixed 4) ++ putFixed 4 (b.result.length % 2 ^ 32) ++
    [UInt8.ofNat kFilterBaseLog]

/-- A data block: where it starts, and the keys added after `start_block`. -/
def addBlock (P : FilterPolicy) (b : FilterBlockBuilder) (block : ℕ × List Bytes) :
    FilterBlockBuilder :=
  block.2.foldl addKey (b.startBlock P block.1)

end FilterBlockBuilder

/-! ## Asking a filter block -/

/-- `class FilterBlockReader`: the contents, and where the offsets stand. -/
structure FilterBlockReader where
  data : Bytes
  offset : ℕ
  num : ℕ
  baseLg : ℕ

namespace FilterBlockReader

/-- `FilterBlockReader::FilterBlockReader` (lines 70–94); `none` where `data_` stays
    null. -/
def new (contents : Bytes) : Option FilterBlockReader :=
  if contents.length < 5 then none
  else
    let baseLg := (contents.getD (contents.length - 1) 0).toNat
    if 64 ≤ baseLg then none
    else
      let lastWord := decodeFixed ((contents.drop (contents.length - 5)).take 4)
      if contents.length - 5 < lastWord then none
      else some ⟨contents, lastWord, (contents.length - 5 - lastWord) / 4, baseLg⟩

/-- `key_may_match` (lines 96–119). -/
def keyMayMatch (P : FilterPolicy) (reader : Option FilterBlockReader) (blockOffset : ℕ)
    (key : Bytes) : Bool :=
  match reader with
  | none => true
  | some r =>
    let index := blockOffset >>> r.baseLg
    if r.num ≤ index then true
    else
      let start := decodeFixed ((r.data.drop (r.offset + index * 4)).take 4)
      let limit := decodeFixed ((r.data.drop (r.offset + index * 4 + 4)).take 4)
      if limit < start ∨ r.offset < limit then true
      else if start = limit then true
      else P.keyMayMatch key ((r.data.drop start).take (limit - start))

end FilterBlockReader

/-! ## The regions -/

/-- The filter of a region's keys. -/
def filterOf (P : FilterPolicy) (keys : List Bytes) : Bytes :=
  if keys = [] then [] else P.createFilter keys

namespace FilterBlockBuilder

variable {P : FilterPolicy} {b : FilterBlockBuilder} {groups : List (List Bytes)}

/-- The builder has made the filters of these groups of keys, one for each region. -/
structure Holds (P : FilterPolicy) (b : FilterBlockBuilder) (groups : List (List Bytes)) : Prop where
  result : b.result = (groups.map (filterOf P)).flatten
  offsets : b.filterOffsets =
    (List.range groups.length).map fun i => offsetAt (groups.map (filterOf P)) i % 2 ^ 32

theorem Holds.length (h : Holds P b groups) : b.filterOffsets.length = groups.length := by
  rw [h.offsets, List.length_map, List.length_range]

theorem holds_new (P : FilterPolicy) : Holds P new [] := ⟨rfl, rfl⟩

/-- A new filter takes the keys since the last one, and leaves none. -/
theorem Holds.generateFilter (h : Holds P b groups) :
    Holds P (b.generateFilter P) (groups ++ [b.keys]) ∧ (b.generateFilter P).keys = [] := by
  have hoffsets : b.filterOffsets ++ [b.result.length % 2 ^ 32] =
      (List.range (groups ++ [b.keys]).length).map fun i =>
        offsetAt ((groups ++ [b.keys]).map (filterOf P)) i % 2 ^ 32 := by
    rw [List.length_append, List.length_singleton, List.range_succ, List.map_append, List.map_append,
      h.offsets, h.result]
    congr 1
    · refine List.map_congr_left fun i hi => ?_
      have := List.mem_range.mp hi
      rw [Lib.offsetAt_append (by rw [List.length_map]; omega)]
    · rw [List.map_singleton, Lib.offsetAt_append (by rw [List.length_map]), ← Lib.offsetAt_length,
        List.length_map]
  unfold FilterBlockBuilder.generateFilter
  simp only
  split_ifs with hkeys
  · refine ⟨⟨?_, hoffsets⟩, hkeys⟩
    rw [h.result, List.map_append, List.flatten_append]
    simp [filterOf, hkeys]
  · refine ⟨⟨?_, hoffsets⟩, rfl⟩
    rw [h.result, List.map_append, List.flatten_append]
    simp [filterOf, hkeys]

/-- `start_block` makes filters up to the region of the block. Every key stays in its
    region, the last one of which is that of the keys to come. -/
theorem Holds.startLoop {wanted : ℕ} :
    ∀ {turns : ℕ} {b : FilterBlockBuilder} {groups : List (List Bytes)}, Holds P b groups →
      groups.length ≤ wanted → wanted ≤ turns + groups.length →
      ∃ groups', Holds P (b.startLoop P wanted turns) groups' ∧ groups'.length = wanted ∧
        groups ++ [b.keys] <+: groups' ++ [(b.startLoop P wanted turns).keys] := by
  intro turns
  induction turns with
  | zero =>
    intro b groups h hle hge
    exact ⟨groups, h, by omega, List.prefix_refl _⟩
  | succ turns ih =>
    intro b groups h hle hge
    rw [FilterBlockBuilder.startLoop, h.length]
    split_ifs with hlt
    · obtain ⟨hgen, hnil⟩ := h.generateFilter
      obtain ⟨groups', h', hlen, hpref⟩ := ih hgen
        (by rw [List.length_append, List.length_singleton]; omega)
        (by rw [List.length_append, List.length_singleton]; omega)
      exact ⟨groups', h', hlen, (List.prefix_append _ _).trans hpref⟩
    · exact ⟨groups, h, by omega, List.prefix_refl _⟩

/-- The key is among those of its region, made into a filter or yet to be. -/
def Filed (b : FilterBlockBuilder) (groups : List (List Bytes)) (region : ℕ) (key : Bytes) : Prop :=
  ∃ g, (groups ++ [b.keys])[region]? = some g ∧ key ∈ g

theorem Filed.of_prefix {b' : FilterBlockBuilder} {groups' : List (List Bytes)} {region : ℕ}
    {key : Bytes} (h : Filed b groups region key)
    (hpref : groups ++ [b.keys] <+: groups' ++ [b'.keys]) : Filed b' groups' region key := by
  obtain ⟨g, hg, hkey⟩ := h
  obtain ⟨t, ht⟩ := hpref
  refine ⟨g, ?_, hkey⟩
  rw [← ht, List.getElem?_append_left (List.getElem?_eq_some_iff.mp hg).1, hg]

theorem foldl_addKey (keys : List Bytes) :
    ∀ b : FilterBlockBuilder, keys.foldl addKey b = { b with keys := b.keys ++ keys } := by
  induction keys with
  | nil => intro b; simp
  | cons key keys ih =>
    intro b
    rw [List.foldl_cons, ih]
    simp [addKey]

/-- Keys added after `start_block` join the last region; the keys filed stay filed. -/
theorem Filed.addKeys {region : ℕ} {key : Bytes} (h : Filed b groups region key) (keys : List Bytes) :
    Filed { b with keys := b.keys ++ keys } groups region key := by
  obtain ⟨g, hg, hkey⟩ := h
  by_cases hlt : region < groups.length
  · refine ⟨g, ?_, hkey⟩
    rw [List.getElem?_append_left hlt] at hg ⊢
    exact hg
  · have hregion : region = groups.length := by
      have := (List.getElem?_eq_some_iff.mp hg).1
      rw [List.length_append, List.length_singleton] at this
      omega
    rw [hregion, List.getElem?_append_right le_rfl, Nat.sub_self] at hg
    refine ⟨b.keys ++ keys, ?_, ?_⟩
    · rw [hregion, List.getElem?_append_right le_rfl, Nat.sub_self]
      rfl
    · rw [Option.some.inj hg]
      exact List.mem_append_left _ hkey

/-- **One data block**: its keys are filed under the region it starts in. -/
theorem Holds.addBlock {block : ℕ × List Bytes} (h : Holds P b groups)
    (hle : groups.length ≤ block.1 >>> kFilterBaseLog) :
    ∃ groups', Holds P (b.addBlock P block) groups' ∧
      groups'.length = block.1 >>> kFilterBaseLog ∧
      (∀ region key, Filed b groups region key → Filed (b.addBlock P block) groups' region key) ∧
      ∀ key ∈ block.2, Filed (b.addBlock P block) groups' (block.1 >>> kFilterBaseLog) key := by
  obtain ⟨groups', h', hlen, hpref⟩ := h.startLoop hle (Nat.le_add_right _ _)
  have hadd : b.addBlock P block = { b.startBlock P block.1 with
      keys := (b.startBlock P block.1).keys ++ block.2 } := foldl_addKey _ _
  rw [hadd]
  refine ⟨groups', ⟨h'.result, h'.offsets⟩, hlen, fun region key hkey => ?_, fun key hkey => ?_⟩
  · exact (hkey.of_prefix hpref).addKeys block.2
  · refine ⟨(b.startBlock P block.1).keys ++ block.2, ?_, List.mem_append_right _ hkey⟩
    rw [← hlen, List.getElem?_append_right le_rfl, Nat.sub_self]
    rfl

/-- **All data blocks**, in the order of their offsets. -/
theorem Holds.addBlocks {blocks : List (ℕ × List Bytes)} :
    ∀ {b : FilterBlockBuilder} {groups : List (List Bytes)}, Holds P b groups →
      (blocks.map Prod.fst).Pairwise (· ≤ ·) →
      (∀ block ∈ blocks, groups.length ≤ block.1 >>> kFilterBaseLog) →
      ∃ groups', Holds P (blocks.foldl (FilterBlockBuilder.addBlock P) b) groups' ∧
        (∀ region key, Filed b groups region key →
          Filed (blocks.foldl (FilterBlockBuilder.addBlock P) b) groups' region key) ∧
        ∀ block ∈ blocks, ∀ key ∈ block.2,
          Filed (blocks.foldl (FilterBlockBuilder.addBlock P) b) groups'
            (block.1 >>> kFilterBaseLog) key := by
  induction blocks with
  | nil => exact fun h _ _ => ⟨_, h, fun _ _ hf => hf, by simp⟩
  | cons block blocks ih =>
    intro b groups h hsorted hle
    rw [List.map_cons, List.pairwise_cons] at hsorted
    obtain ⟨groups₁, h₁, hlen, hold, hnew⟩ := h.addBlock (hle block List.mem_cons_self)
    obtain ⟨groups₂, h₂, hold₂, hnew₂⟩ := ih h₁ hsorted.2 fun block' hblock' => by
      rw [hlen, Nat.shiftRight_eq_div_pow, Nat.shiftRight_eq_div_pow]
      exact Nat.div_le_div_right (hsorted.1 _ (List.mem_map_of_mem hblock'))
    refine ⟨groups₂, h₂, fun region key hf => hold₂ region key (hold region key hf), ?_⟩
    intro block' hblock' key hkey
    rcases List.mem_cons.mp hblock' with rfl | hblock'
    · exact hold₂ _ _ (hnew key hkey)
    · exact hnew₂ block' hblock' key hkey

end FilterBlockBuilder

/-! ## The finished block -/

/-- The filter block of a sequence of data blocks. -/
def filterBlock (P : FilterPolicy) (blocks : List (ℕ × List Bytes)) : Bytes :=
  (blocks.foldl (FilterBlockBuilder.addBlock P) FilterBlockBuilder.new).finish P

/-- The words behind the filters: an offset for every filter and one for their end. -/
theorem finish_eq {P : FilterPolicy} {b : FilterBlockBuilder} {groups : List (List Bytes)}
    (h : b.Holds P groups) :
    ∃ filters : List Bytes,
      b.finish P = filters.flatten ++
        ((List.range (filters.length + 1)).map fun i => offsetAt filters i % 2 ^ 32).flatMap
          (putFixed 4) ++ [UInt8.ofNat kFilterBaseLog] ∧
      ∀ region key, b.Filed groups region key →
        ∃ keys, filters[region]? = some (P.createFilter keys) ∧ key ∈ keys := by
  -- with keys left a last filter is made of them
  have hmade : ∃ groups', (if b.keys ≠ [] then b.generateFilter P else b).Holds P groups' ∧
      ∀ region key, b.Filed groups region key → ∃ g, groups'[region]? = some g ∧ key ∈ g := by
    split_ifs with hkeys
    · exact ⟨_, h.generateFilter.1, fun _ _ hf => hf⟩
    · refine ⟨groups, h, fun region key hf => ?_⟩
      obtain ⟨g, hg, hkey⟩ := hf
      by_cases hlt : region < groups.length
      · rw [List.getElem?_append_left hlt] at hg
        exact ⟨g, hg, hkey⟩
      · rw [List.getElem?_append_right (by omega), List.getElem?_singleton] at hg
        split_ifs at hg
        rw [← Option.some.inj hg, not_not.mp hkeys] at hkey
        cases hkey
  obtain ⟨groups', h', hfiled⟩ := hmade
  refine ⟨groups'.map (filterOf P), ?_, fun region key hf => ?_⟩
  · rw [FilterBlockBuilder.finish, h'.result, h'.offsets, List.length_map, List.range_succ, List.map_append, List.flatMap_append,
      List.map_singleton, List.flatMap_singleton, ← Lib.offsetAt_length, List.length_map]
    simp only [List.append_assoc]
  · obtain ⟨g, hg, hkey⟩ := hfiled region key hf
    refine ⟨g, ?_, hkey⟩
    have hne : g ≠ [] := List.ne_nil_of_mem hkey
    rw [List.getElem?_map, hg, Option.map_some, filterOf, if_neg hne]

/-- **The filter of a region** is the one its lookups are answered from. -/
theorem keyMayMatch_finish {P : FilterPolicy} {contents key : Bytes} {filters : List Bytes}
    {blockOffset : ℕ} {filter : Bytes}
    (hcontents : contents = filters.flatten ++
      ((List.range (filters.length + 1)).map fun i => offsetAt filters i % 2 ^ 32).flatMap
        (putFixed 4) ++ [UInt8.ofNat kFilterBaseLog])
    (hlen : contents.length < 2 ^ 32)
    (hfilter : filters[blockOffset >>> kFilterBaseLog]? = some filter)
    (hmatch : P.keyMayMatch key filter = true) :
    FilterBlockReader.keyMayMatch P (FilterBlockReader.new contents) blockOffset key = true := by
  generalize hwords : ((List.range (filters.length + 1)).map fun i => offsetAt filters i % 2 ^ 32) =
    words at hcontents
  have hwlen : words.length = filters.length + 1 := by
    rw [← hwords, List.length_map, List.length_range]
  have htotal : contents.length = filters.flatten.length + (filters.length + 1) * 4 + 1 := by
    rw [hcontents, List.length_append, List.length_append, length_array, hwlen, List.length_singleton]
  -- the word `i` is where filter `i` starts, the last one where they end
  have hword : ∀ i ≤ filters.length,
      decodeFixed ((contents.drop (filters.flatten.length + i * 4)).take 4) = offsetAt filters i := by
    intro i hi
    have hlt : offsetAt filters i < 2 ^ 32 := by
      have := Lib.offsetAt_le_length filters i
      omega
    rw [← List.drop_drop, hcontents, List.append_assoc, List.drop_left,
      decodeFixed_array (fun w hw => ?_) _ (by omega : i < words.length)]
    · simp only [← hwords, List.getElem_map, List.getElem_range]
      exact Nat.mod_eq_of_lt hlt
    · rw [← hwords] at hw
      obtain ⟨j, -, rfl⟩ := List.mem_map.mp hw
      exact Nat.mod_lt _ (by norm_num)
  have hbase : (contents.getD (contents.length - 1) 0).toNat = kFilterBaseLog := by
    rw [hcontents, List.getD_eq_getElem?_getD, List.length_append, List.length_singleton,
      Nat.add_sub_cancel, List.getElem?_append_right le_rfl, Nat.sub_self]
    rfl
  have hlast : decodeFixed ((contents.drop (contents.length - 5)).take 4) = filters.flatten.length := by
    have := hword filters.length le_rfl
    rwa [Lib.offsetAt_length, show filters.flatten.length + filters.length * 4 = contents.length - 5 by
      omega] at this
  have hnew : FilterBlockReader.new contents =
      some ⟨contents, filters.flatten.length, filters.length, kFilterBaseLog⟩ := by
    unfold FilterBlockReader.new
    rw [if_neg (by omega)]
    simp only [hbase, hlast]
    rw [if_neg (by decide), if_neg (by omega)]
    congr 2
    omega
  generalize hregion : blockOffset >>> kFilterBaseLog = region at hfilter
  obtain ⟨hlt, hget⟩ := List.getElem?_eq_some_iff.mp hfilter
  have hstart := hword region hlt.le
  have hlimit := hword (region + 1) hlt
  have hle : offsetAt filters region ≤ offsetAt filters (region + 1) := Lib.offsetAt_mono (Nat.le_succ _)
  have hend := Lib.offsetAt_le_length filters (region + 1)
  rw [Nat.succ_mul, ← Nat.add_assoc] at hlimit
  rw [hnew, FilterBlockReader.keyMayMatch]
  simp only [hregion, hstart, hlimit]
  rw [if_neg (by omega), if_neg (by omega)]
  split_ifs
  · rfl
  · have hslice : (contents.drop (offsetAt filters region)).take
        (offsetAt filters (region + 1) - offsetAt filters region) = filter := by
      rw [hcontents, List.append_assoc, List.drop_append_of_le_length (by omega),
        List.take_append_of_le_length (by rw [List.length_drop]; omega), Lib.slice_offsetAt hlt, hget]
    rw [hslice]
    exact hmatch

/-- A lookup at a data block's offset is not told that a key of the block is absent. -/
theorem keyMayMatch_filterBlock {P : FilterPolicy} {sees : Bytes → Bytes} (hP : P.Sound sees)
    {blocks : List (ℕ × List Bytes)} (hsorted : (blocks.map Prod.fst).Pairwise (· ≤ ·))
    (hlen : (filterBlock P blocks).length < 2 ^ 32) {block : ℕ × List Bytes} (hblock : block ∈ blocks)
    {key key' : Bytes} (hkey : key ∈ block.2) (hsame : sees key' = sees key) :
    FilterBlockReader.keyMayMatch P (FilterBlockReader.new (filterBlock P blocks)) block.1 key' = true := by
  obtain ⟨groups, h, -, hfiled⟩ := FilterBlockBuilder.Holds.addBlocks
    (FilterBlockBuilder.holds_new P) hsorted fun _ _ => Nat.zero_le _
  obtain ⟨filters, hcontents, hfilters⟩ := finish_eq h
  obtain ⟨keys, hfilter, hmem⟩ := hfilters _ key (hfiled block hblock key hkey)
  exact keyMayMatch_finish hcontents hlen hfilter (hP keys key hmem key' hsame)

/-- **No key of a data block is denied**: data blocks in the order of their offsets, the
    Bloom filter over user keys with any number of bits and probes, and any internal key
    with the user key of one that was added. -/
theorem bloom_keyMayMatch_of_added {bitsPerKey k : ℕ} (hk : k ≤ 30) {blocks : List (ℕ × List Bytes)}
    (hsorted : (blocks.map Prod.fst).Pairwise (· ≤ ·))
    (hkeys : ∀ block ∈ blocks, ∀ key ∈ block.2, 8 ≤ key.length)
    (hlen : (filterBlock (internalFilterPolicy (bloomFilterPolicy bitsPerKey k)) blocks).length < 2 ^ 32)
    {block : ℕ × List Bytes} (hblock : block ∈ blocks) {key key' : Bytes} (hkey : key ∈ block.2)
    (hkey' : 8 ≤ key'.length) (hsame : extractUserKey key' = extractUserKey key) :
    FilterBlockReader.keyMayMatch (internalFilterPolicy (bloomFilterPolicy bitsPerKey k))
      (FilterBlockReader.new
        (filterBlock (internalFilterPolicy (bloomFilterPolicy bitsPerKey k)) blocks))
      block.1 key' = true := by
  refine keyMayMatch_filterBlock (internalFilterPolicy_sound (bloomFilterPolicy_sound hk)) hsorted hlen
    hblock hkey ?_
  rw [filterKey, filterKey, if_pos hkey', if_pos (hkeys block hblock key hkey), hsame]

/-- Two blocks in different regions, and the second one's key asked for at a later
    sequence. -/
theorem bloom_keyMayMatch_second :
    FilterBlockReader.keyMayMatch (internalFilterPolicy (bloomFilterPolicy 10 6))
      (FilterBlockReader.new (filterBlock (internalFilterPolicy (bloomFilterPolicy 10 6))
        [(0, [[97, 1, 1, 0, 0, 0, 0, 0, 0]]), (5000, [[98, 1, 2, 0, 0, 0, 0, 0, 0]])]))
      5000 [98, 1, 7, 0, 0, 0, 0, 0, 0] = true :=
  @bloom_keyMayMatch_of_added 10 6 (by decide)
    [(0, [[97, 1, 1, 0, 0, 0, 0, 0, 0]]), (5000, [[98, 1, 2, 0, 0, 0, 0, 0, 0]])] (by decide)
    (by decide) (by decide +kernel) (5000, [[98, 1, 2, 0, 0, 0, 0, 0, 0]]) (by decide)
    [98, 1, 2, 0, 0, 0, 0, 0, 0] [98, 1, 7, 0, 0, 0, 0, 0, 0] (by decide) (by decide) (by decide)

end Ambar
