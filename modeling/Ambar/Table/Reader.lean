import Ambar.Table.Block
import Ambar.Table.Builder
import Ambar.Table.TwoLevel

/-!
# Reading tables

`Table` (`src/table.cpp`): opening a file, iterating over it and looking a key up. The
cache of blocks is left out: a block is read whenever it is asked for.

* `Written`: the entries of a table in its data blocks, each block below 4 GiB.
* `Written.openTable`: the file is opened.
-/

namespace Ambar

open Lib (offsetAt Cursor Follows)

/-! ## Iterators -/

/-- What `Block::new_iterator` returns: an iterator of the block, or one that never becomes
    valid (`src/iterator.cpp`). -/
inductive AnyIter where
  | empty (status : Status)
  | iter (b : Block) (s : BlockIter)

/-- `Block::new_iterator` (`src/block.cpp`, lines 289–297). -/
def Block.newIterator (b : Block) : AnyIter :=
  if b.size < 4 then .empty (.corruption "block is too small")
  else if b.numRestarts = 0 then .empty .ok
  else .iter b b.iter

namespace AnyIter

def status : AnyIter → Status
  | empty status => status
  | iter _ s => s.status

def current : AnyIter → Option KeyValue
  | empty _ => none
  | iter b s => b.current s

/-- A move of a block's iterator. -/
def move (f : Block → BlockIter → BlockIter) : AnyIter → AnyIter
  | empty status => empty status
  | iter b s => iter b (f b s)

variable {κ : Type} [LinearOrder κ]

def cursor (c : Comparator κ) : Cursor AnyIter KeyValue Bytes where
  current := current
  seekToFirst := move fun b => (b.blockCursor c).seekToFirst
  seekToLast := move fun b => (b.blockCursor c).seekToLast
  seek target := move fun b => (b.blockCursor c).seek target
  next := move fun b => (b.blockCursor c).next
  prev := move fun b => (b.blockCursor c).prev

end AnyIter

/-! ## Tables -/

/-- `struct Table::Rep`. -/
structure Table where
  file : Bytes
  indexBlock : Block
  filter : Option (FilterPolicy × Option FilterBlockReader)

namespace Table

/-- The filter of a table, if it has one that can be read (lines 79–104). -/
def readFilter (o : TableOptions) (file : Bytes) (metaindexHandle : BlockHandle) :
    Option (FilterPolicy × Option FilterBlockReader) := do
  let P ← o.filterPolicy
  let contents ← (readBlock file metaindexHandle).toOption
  let C := AnyIter.cursor bytewiseComparator
  let (key, handleValue) ← C.current (C.seek (filterName P) (Block.new contents).newIterator)
  if key = filterName P then
    let (filterHandle, _) ← (BlockHandle.decodeFrom handleValue).toOption
    let filterContents ← (readBlock file filterHandle).toOption
    some (P, FilterBlockReader.new filterContents)
  else none

/-- `Table::open` (lines 38–106). -/
def openTable (o : TableOptions) (file : Bytes) : Except Status Table :=
  if file.length < Footer.kEncodedLength then .error (.corruption "file is too short to be a table")
  else do
    let footer ← Footer.decodeFrom (file.drop (file.length - Footer.kEncodedLength))
    let indexContents ← readBlock file footer.indexHandle
    .ok ⟨file, Block.new indexContents, readFilter o file footer.metaindexHandle⟩

/-- `block_for` (lines 174–234). -/
def blockFor (t : Table) (indexValue : Bytes) : Except Status Block := do
  let (handle, _) ← BlockHandle.decodeFrom indexValue
  let contents ← readBlock t.file handle
  .ok (Block.new contents)

/-- `block_reader` (lines 236–254). -/
def blockReader (t : Table) (indexValue : Bytes) : AnyIter :=
  match t.blockFor indexValue with
  | .error status => .empty status
  | .ok block => block.newIterator

variable {κ : Type} [LinearOrder κ] (c : Comparator κ)

/-- The two levels of a table's iterator. -/
def levels (t : Table) : TwoLevels AnyIter AnyIter where
  index := AnyIter.cursor c
  indexStatus := AnyIter.status
  data := AnyIter.cursor c
  dataStatus := AnyIter.status
  function := t.blockReader
  turns := t.indexBlock.data.length + 2

/-- `new_iterator` (lines 256–260). -/
def newIterator (t : Table) : TwoLevelIterator AnyIter AnyIter := TwoLevels.new t.indexBlock.newIterator

/-- Whether the filter denies a key to the block of an index value (lines 284–287). -/
def filterDenies (t : Table) (indexValue key : Bytes) : Bool :=
  match t.filter, BlockHandle.decodeFrom indexValue with
  | some (P, reader), .ok (handle, _) => !FilterBlockReader.keyMayMatch P reader handle.offset key
  | _, _ => false

/-- `internal_get` (lines 262–299): the entry handed to the callback, if any. -/
def internalGet (t : Table) (key : Bytes) : Except Status (Option KeyValue) := do
  match ← t.indexBlock.find c key with
  | none => .ok none
  | some (_, indexValue) =>
    if t.filterDenies indexValue key then .ok none
    else do
      let block ← t.blockFor indexValue
      block.find c key

end Table

/-! ## Stored blocks -/

theorem storedBlock_spec (o : TableOptions) {raw : Bytes} (h : raw.length < 2 ^ 32) :
    decoded (storedBlock o raw).1 (storedBlock o raw).2 = .ok raw ∧
      (storedBlock o raw).1.length ≤ raw.length := by
  unfold storedBlock
  split_ifs with hlz
  · exact ⟨decompress_compress h, by show (compressBlock raw []).length ≤ _; omega⟩
  · exact ⟨rfl, le_rfl⟩

/-- A block of entries, read back. -/
theorem rawBlock_image {κ : Type} {c : Comparator κ} {o : TableOptions} (ho : 1 ≤ o.blockRestartInterval)
    {g : List KeyValue} (hne : g ≠ []) (hmin : ∀ kv ∈ g, c.minKeyLength ≤ kv.1.length)
    (hsize : (rawBlock o g).length < 2 ^ 32) :
    ∃ chunks shared starts, (Block.new (rawBlock o g)).Image c g chunks shared starts := by
  obtain ⟨chunks, shared, starts, hholds⟩ := BlockBuilder.Holds.foldl_add ho g BlockBuilder.holds_new
  exact ⟨chunks, shared, starts, hholds.image hne hmin hsize 0⟩

/-- A new iterator of a block that holds entries is one of its own, before any move. -/
theorem Block.Image.newIterator {κ : Type} {c : Comparator κ} {b : Block} {kvs : List KeyValue}
    {chunks : List Bytes} {shared : ℕ → ℕ} {starts : List ℕ} (h : b.Image c kvs chunks shared starts) :
    b.newIterator = .iter b b.iter ∧ Block.Position b kvs chunks starts b.iter none := by
  have hsize := h.size
  have hhead := h.layout.starts_head
  have hpos : b.numRestarts ≠ 0 := by
    rw [h.numRestarts]
    exact fun h0 => by rw [List.length_eq_zero_iff.mp h0] at hhead; cases hhead
  rw [Block.newIterator, if_neg (by omega), if_neg hpos]
  exact ⟨rfl, rfl, rfl⟩

/-- States of `AnyIter` that stand for positions of a block's entries. -/
def AnyIter.Reads (b : Block) (kvs : List KeyValue) (chunks : List Bytes) (starts : List ℕ)
    (s : AnyIter) (p : Option ℕ) : Prop :=
  ∃ s', s = .iter b s' ∧ Block.Position b kvs chunks starts s' p

theorem Block.Image.any_follows {κ : Type} [LinearOrder κ] {c : Comparator κ} {b : Block}
    {kvs : List KeyValue} {chunks : List Bytes} {shared : ℕ → ℕ} {starts : List ℕ}
    (h : b.Image c kvs chunks shared starts) (hsorted : kvs.Pairwise fun x y => c.rank x.1 < c.rank y.1) :
    Follows (AnyIter.cursor c) (fun target kv => c.less kv.1 target) kvs
      (AnyIter.Reads b kvs chunks starts) where
  current := by
    rintro _ p ⟨s, rfl, hs⟩
    exact (h.follows hsorted).current hs
  bound := by
    rintro _ i ⟨s, rfl, hs⟩
    exact (h.follows hsorted).bound hs
  seekToFirst := by
    rintro _ p ⟨s, rfl, hs⟩
    exact ⟨_, rfl, (h.follows hsorted).seekToFirst hs⟩
  seekToLast := by
    rintro _ p ⟨s, rfl, hs⟩
    exact ⟨_, rfl, (h.follows hsorted).seekToLast hs⟩
  seek := by
    rintro _ p k ⟨s, rfl, hs⟩
    exact ⟨_, rfl, (h.follows hsorted).seek k hs⟩
  next := by
    rintro _ i ⟨s, rfl, hs⟩
    exact ⟨_, rfl, (h.follows hsorted).next hs⟩
  prev := by
    rintro _ i ⟨s, rfl, hs⟩
    exact ⟨_, rfl, (h.follows hsorted).prev hs⟩
  prev_zero := by
    rintro _ ⟨s, rfl, hs⟩
    exact ⟨_, rfl, (h.follows hsorted).prev_zero hs⟩

/-! ## A table that was written -/

section

variable {κ : Type} {o : TableOptions} {c : Comparator κ} {groups : List (List KeyValue)} {i : ℕ}

theorem length_fullIndex (hne : groups ≠ []) : (fullIndex o c groups).length = groups.length := by
  have := List.length_pos_iff.mpr hne
  simp only [fullIndex, indexEntries, if_true, List.length_append, List.length_map, List.length_range,
    List.length_singleton]
  omega

/-- The index entry of a block: a separator, and its handle. -/
theorem fullIndex_get (hi : i < groups.length) :
    (fullIndex o c groups)[i]? = some
      (if i + 1 < groups.length then
        c.findShortestSeparator (lastKeyOf (groups.getD i [])) (firstKeyOf (groups.getD (i + 1) []))
      else c.findShortSuccessor (lastKeyOf groups.flatten), (handleAt o groups i).encodeTo) := by
  have hlen : (indexEntries o c groups []).length = groups.length - 1 := by simp [indexEntries]
  unfold fullIndex
  split_ifs with hlast
  · rw [List.getElem?_append_left (by omega), indexEntries, if_pos rfl,
      List.getElem?_map, List.getElem?_range (by omega), Option.map_some, getD_append_of_lt hlast]
  · rw [List.getElem?_append_right (by omega), hlen, show i - (groups.length - 1) = 0 by omega,
      show groups.length - 1 = i by omega]
    rfl

theorem exists_group {sep : KeyValue} (hne : groups ≠ []) (hsep : (fullIndex o c groups)[i]? = some sep) :
    ∃ g, groups[i]? = some g := by
  have := (List.getElem?_eq_some_iff.mp hsep).1
  rw [length_fullIndex hne] at this
  exact ⟨_, List.getElem?_eq_getElem this⟩

/-- A part of the file between those before and those after it. -/
theorem readBlock_middle {before after : List Bytes} {contents raw : Bytes} {type : CompressionType}
    (hdecoded : decoded contents type = .ok raw) :
    readBlock (before ++ blockBytes contents type :: after).flatten
      ⟨before.flatten.length, contents.length⟩ = .ok raw := by
  have hget : (before ++ blockBytes contents type :: after)[before.length]? =
      some (blockBytes contents type) := by
    rw [List.getElem?_append_right le_rfl, Nat.sub_self]
    rfl
  have := readBlock_parts hget hdecoded
  rwa [Lib.offsetAt_append le_rfl, Lib.offsetAt_length] at this

theorem readBlock_index :
    readBlock (tableParts o c groups).flatten (footerOf o c groups).indexHandle =
      .ok (indexRaw o c groups) := by
  have := @readBlock_middle (frontParts o groups ++ [blockBytes (metaindexRaw o groups) .none])
    [(footerOf o c groups).encodeTo] (indexRaw o c groups) _ .none rfl
  rw [List.append_assoc] at this
  exact this

theorem readBlock_metaindex :
    readBlock (tableParts o c groups).flatten (footerOf o c groups).metaindexHandle =
      .ok (metaindexRaw o groups) :=
  readBlock_middle rfl

end

/-- The data blocks of a table, and what is asked of them. -/
structure Written {κ : Type} [LinearOrder κ] (o : TableOptions) (c : Comparator κ)
    (groups : List (List KeyValue)) : Prop where
  interval : 1 ≤ o.blockRestartInterval
  shortens : c.Shortens
  nonempty : groups ≠ []
  blocks_nonempty : ∀ g ∈ groups, g ≠ []
  sorted : groups.flatten.Pairwise fun x y => c.rank x.1 < c.rank y.1
  lengths : ∀ kv ∈ groups.flatten, c.minKeyLength ≤ kv.1.length
  raw_lt : ∀ g ∈ groups, (rawBlock o g).length < 2 ^ 32
  filter_lt : ∀ f ∈ filterRaw o groups, f.length < 2 ^ 32
  metaindex_lt : (metaindexRaw o groups).length < 2 ^ 32
  index_lt : (indexRaw o c groups).length < 2 ^ 32

namespace Written

variable {κ : Type} [LinearOrder κ] {o : TableOptions} {c : Comparator κ} {groups : List (List KeyValue)}
  {i : ℕ} {g : List KeyValue}

theorem mem_flatten (hi : groups[i]? = some g) {kv : KeyValue} (hkv : kv ∈ g) : kv ∈ groups.flatten :=
  List.mem_flatten.mpr ⟨g, List.mem_of_getElem? hi, hkv⟩

variable (h : Written o c groups)
include h

theorem block_sorted (hi : groups[i]? = some g) : g.Pairwise fun x y => c.rank x.1 < c.rank y.1 :=
  (List.pairwise_flatten.mp h.sorted).1 g (List.mem_of_getElem? hi)

theorem blocks_sorted {j : ℕ} {g' : List KeyValue} (hi : groups[i]? = some g) (hj : groups[j]? = some g')
    (hij : i < j) {x y : KeyValue} (hx : x ∈ g) (hy : y ∈ g') : c.rank x.1 < c.rank y.1 := by
  obtain ⟨hi', rfl⟩ := List.getElem?_eq_some_iff.mp hi
  obtain ⟨hj', rfl⟩ := List.getElem?_eq_some_iff.mp hj
  exact List.pairwise_iff_getElem.mp (List.pairwise_flatten.mp h.sorted).2 i j hi' hj' hij x hx y hy

/-- The first key of a block is the least. -/
theorem firstKeyOf_le (hi : groups[i]? = some g) {kv : KeyValue} (hkv : kv ∈ g) :
    c.rank (firstKeyOf g) ≤ c.rank kv.1 := by
  have hsorted := h.block_sorted hi
  cases g with
  | nil => cases hkv
  | cons x xs =>
    show c.rank x.1 ≤ _
    rcases List.mem_cons.mp hkv with rfl | hmem
    · exact le_rfl
    · exact ((List.pairwise_cons.mp hsorted).1 kv hmem).le

/-- The last key of a block is the greatest, and one of its keys. -/
theorem le_lastKeyOf (hi : groups[i]? = some g) {kv : KeyValue} (hkv : kv ∈ g) :
    c.rank kv.1 ≤ c.rank (lastKeyOf g) ∧ ∃ last ∈ g, lastKeyOf g = last.1 := by
  have hsorted := h.block_sorted hi
  have hne : g ≠ [] := List.ne_nil_of_mem hkv
  have hlast : lastKeyOf g = (g.getLast hne).1 := by
    rw [lastKeyOf, List.getLast?_eq_getLast_of_ne_nil hne]
    rfl
  refine ⟨?_, g.getLast hne, List.getLast_mem hne, hlast⟩
  rw [hlast]
  obtain ⟨j, hj, rfl⟩ := List.mem_iff_getElem.mp hkv
  rw [List.getLast_eq_getElem]
  rcases Nat.lt_or_ge j (g.length - 1) with hlt | hge
  · exact (List.pairwise_iff_getElem.mp hsorted j (g.length - 1) hj (by omega) hlt).le
  · exact le_of_eq (by congr 2; simp only [show j = g.length - 1 by omega])

/-! ### The index -/

/-- The last key of the table is that of its last block. -/
theorem lastKeyOf_flatten (hi : groups[i]? = some g) (hlast : ¬ i + 1 < groups.length) :
    lastKeyOf groups.flatten = lastKeyOf g := by
  obtain ⟨hlt, rfl⟩ := List.getElem?_eq_some_iff.mp hi
  have hsplit : groups = groups.take i ++ [groups[i]] := by
    conv_lhs => rw [← List.take_append_drop i groups]
    rw [List.drop_eq_getElem_cons hlt, List.drop_eq_nil_of_le (by omega)]
  have hne := h.blocks_nonempty _ (List.getElem_mem hlt)
  conv_lhs => rw [hsplit, List.flatten_append, List.flatten_singleton]
  exact lastKeyOf_append hne _

/-- **Separators**: at or after the keys of their block, before those of the next. -/
theorem separator {sep : KeyValue} (hsep : (fullIndex o c groups)[i]? = some sep)
    (hi : groups[i]? = some g) :
    c.minKeyLength ≤ sep.1.length ∧ (∀ kv ∈ g, c.rank kv.1 ≤ c.rank sep.1) ∧
      ∀ g', groups[i + 1]? = some g' → sep.1 = c.findShortestSeparator (lastKeyOf g) (firstKeyOf g') ∧
        ∀ kv ∈ g', c.rank sep.1 < c.rank kv.1 := by
  obtain ⟨hlt, hget⟩ := List.getElem?_eq_some_iff.mp hi
  have hg : groups.getD i [] = g := by rw [List.getD_eq_getElem?_getD, hi]; rfl
  obtain ⟨kv₀, hkv₀⟩ := List.exists_mem_of_ne_nil g (h.blocks_nonempty g (List.mem_of_getElem? hi))
  obtain ⟨last, hmem, hlast⟩ := (h.le_lastKeyOf hi hkv₀).2
  have hmin : c.minKeyLength ≤ (lastKeyOf g).length := by
    rw [hlast]
    exact h.lengths last (mem_flatten hi hmem)
  rw [fullIndex_get hlt, Option.some.injEq] at hsep
  rw [← hsep]
  simp only
  split_ifs with hnext
  · obtain ⟨g', hg'⟩ : ∃ g', groups[i + 1]? = some g' := ⟨_, List.getElem?_eq_getElem hnext⟩
    have hgetD : groups.getD (i + 1) [] = g' := by rw [List.getD_eq_getElem?_getD, hg']; rfl
    have hne' := h.blocks_nonempty g' (List.mem_of_getElem? hg')
    have hfirst : ∃ x ∈ g', firstKeyOf g' = x.1 := by
      obtain ⟨x, xs, rfl⟩ := List.exists_cons_of_ne_nil hne'
      exact ⟨x, List.mem_cons_self, rfl⟩
    obtain ⟨x, hx, hfirst⟩ := hfirst
    have hlt' : c.rank (lastKeyOf g) < c.rank (firstKeyOf g') := by
      rw [hlast, hfirst]
      exact h.blocks_sorted hi hg' (Nat.lt_succ_self i) hmem hx
    obtain ⟨h1, h2, h3⟩ := h.shortens.separator hmin hlt'
    rw [hg, hgetD]
    refine ⟨h1, fun kv hkv => (h.le_lastKeyOf hi hkv).1.trans h2, fun g'' hg'' => ?_⟩
    obtain rfl : g' = g'' := Option.some.inj (hg'.symm.trans hg'')
    exact ⟨rfl, fun kv hkv => h3.trans_le (h.firstKeyOf_le hg' hkv)⟩
  · rw [h.lastKeyOf_flatten hi hnext]
    obtain ⟨h1, h2⟩ := h.shortens.successor hmin
    refine ⟨h1, fun kv hkv => (h.le_lastKeyOf hi hkv).1.trans h2, fun g' hg' => ?_⟩
    exact absurd (List.getElem?_eq_some_iff.mp hg').1 hnext

theorem index_sorted : (fullIndex o c groups).Pairwise fun x y => c.rank x.1 < c.rank y.1 := by
  rw [List.pairwise_iff_getElem]
  intro i j hi hj hij
  have hi' := List.getElem?_eq_getElem hi
  have hj' := List.getElem?_eq_getElem hj
  obtain ⟨g, hg⟩ := exists_group h.nonempty hi'
  obtain ⟨g', hg'⟩ := exists_group h.nonempty hj'
  have hlt : i + 1 < groups.length := by
    have := (List.getElem?_eq_some_iff.mp hg').1
    omega
  obtain ⟨n, hn⟩ : ∃ n, groups[i + 1]? = some n := ⟨_, List.getElem?_eq_getElem hlt⟩
  obtain ⟨x, hx⟩ := List.exists_mem_of_ne_nil n (h.blocks_nonempty n (List.mem_of_getElem? hn))
  have hxj : c.rank x.1 ≤ c.rank (fullIndex o c groups)[j].1 := by
    rcases Nat.lt_or_ge (i + 1) j with hlt | hge
    · obtain ⟨y, hy⟩ := List.exists_mem_of_ne_nil g' (h.blocks_nonempty g' (List.mem_of_getElem? hg'))
      exact (h.blocks_sorted hn hg' hlt hx hy).le.trans ((h.separator hj' hg').2.1 y hy)
    · obtain rfl : j = i + 1 := by omega
      exact (h.separator hj' hn).2.1 x hx
  exact (((h.separator hi' hg).2.2 n hn).2 x hx).trans_le hxj

/-! ### Handles -/

theorem index_image : ∃ chunks shared starts,
    (Block.new (indexRaw o c groups)).Image c (fullIndex o c groups) chunks shared starts := by
  obtain ⟨chunks, shared, starts, hholds⟩ :=
    BlockBuilder.Holds.foldl_add le_rfl (fullIndex o c groups) BlockBuilder.holds_new
  refine ⟨chunks, shared, starts, hholds.image ?_ (fun kv hkv => ?_) h.index_lt 0⟩
  · simp [fullIndex]
  · obtain ⟨i, hi⟩ := List.mem_iff_getElem?.mp hkv
    obtain ⟨g, hg⟩ := exists_group h.nonempty hi
    exact (h.separator hi hg).1

/-- Every block has an index entry, and the index is below 4 GiB. -/
theorem groups_lt : 3 * groups.length < 2 ^ 32 := by
  obtain ⟨chunks, shared, starts, himage⟩ := h.index_image
  have hle := himage.entries_le
  have hlt := h.index_lt
  rw [length_fullIndex h.nonempty] at hle
  have hdata : (Block.new (indexRaw o c groups)).data = indexRaw o c groups := by
    unfold Block.new Block.newAt
    simp only
    split_ifs <;> rfl
  rw [hdata] at hle
  omega

/-- Where the data blocks end. -/
theorem offsetAt_dataBlocks_le (hi : i ≤ groups.length) :
    offsetAt (groups.map (dataBlockBytes o)) i ≤ i * (2 ^ 32 + 5) := by
  induction i with
  | zero => rw [Lib.offsetAt_zero, Nat.zero_mul]
  | succ i ih =>
    have hlt : i < (groups.map (dataBlockBytes o)).length := by rw [List.length_map]; omega
    have hraw := h.raw_lt groups[i] (List.getElem_mem (by omega))
    have hstored := (storedBlock_spec o hraw).2
    have := ih (by omega)
    rw [Lib.offsetAt_succ hlt, List.getElem_map, dataBlockBytes, length_blockBytes]
    unfold kBlockTrailerSize
    rw [Nat.add_mul]
    omega

theorem front_lt : (frontParts o groups).flatten.length < 2 ^ 63 := by
  have hdata := h.offsetAt_dataBlocks_le le_rfl
  have hlen := h.groups_lt
  rw [← List.length_map (dataBlockBytes o), Lib.offsetAt_length, List.length_map] at hdata
  have hfilter : ((filterRaw o groups).toList.map (blockBytes · .none)).flatten.length ≤ 2 ^ 32 + 5 := by
    cases hf : filterRaw o groups with
    | none => simp
    | some f =>
      have := h.filter_lt f hf
      simp only [Option.toList_some, List.map_cons, List.map_nil, List.flatten_singleton, length_blockBytes]
      unfold kBlockTrailerSize
      omega
  rw [frontParts, List.flatten_append, List.length_append]
  have hthird : groups.length * (2 ^ 32 + 5) ≤ (2 ^ 32 / 3) * (2 ^ 32 + 5) :=
    Nat.mul_le_mul_right _ (by omega)
  omega

theorem handleAt_fits (hi : i < groups.length) : (handleAt o groups i).Fits := by
  have hraw := h.raw_lt groups[i] (List.getElem_mem hi)
  have hstored := (storedBlock_spec o hraw).2
  have hfront := h.front_lt
  have hle := Lib.offsetAt_le_length (groups.map (dataBlockBytes o)) i
  rw [frontParts, List.flatten_append, List.length_append] at hfront
  refine ⟨?_, ?_⟩
  · show offsetAt (groups.map (dataBlockBytes o)) i < 2 ^ 64
    omega
  · show (groups[i]?.map fun g => (storedBlock o (rawBlock o g)).1.length).getD 0 < 2 ^ 64
    rw [List.getElem?_eq_getElem hi, Option.map_some, Option.getD_some]
    omega

theorem footer_fits : (footerOf o c groups).metaindexHandle.Fits ∧ (footerOf o c groups).indexHandle.Fits := by
  have hfront := h.front_lt
  have hmeta := h.metaindex_lt
  have hindex := h.index_lt
  refine ⟨⟨?_, ?_⟩, ?_, ?_⟩
  · show (frontParts o groups).flatten.length < 2 ^ 64
    omega
  · show (metaindexRaw o groups).length < 2 ^ 64
    omega
  · show (frontParts o groups ++ [blockBytes (metaindexRaw o groups) .none]).flatten.length < 2 ^ 64
    rw [List.flatten_append, List.length_append, List.flatten_singleton, length_blockBytes]
    unfold kBlockTrailerSize
    omega
  · show (indexRaw o c groups).length < 2 ^ 64
    omega

/-! ### Reading the blocks back -/

theorem readBlock_data (hi : groups[i]? = some g) :
    readBlock (tableParts o c groups).flatten (handleAt o groups i) = .ok (rawBlock o g) := by
  obtain ⟨hlt, hget⟩ := List.getElem?_eq_some_iff.mp hi
  have hraw := h.raw_lt g (List.mem_of_getElem? hi)
  have hpart : (tableParts o c groups)[i]? = some (dataBlockBytes o g) := by
    rw [tableParts, frontParts, List.append_assoc, List.getElem?_append_left (by simpa using hlt),
      List.getElem?_map, hi]
    rfl
  have := readBlock_parts hpart (storedBlock_spec o hraw).1
  rw [tableParts, frontParts, List.append_assoc, Lib.offsetAt_append (by simpa using hlt.le)] at this
  rw [handleAt, hi, Option.map_some, Option.getD_some, tableParts, frontParts, List.append_assoc]
  exact this

/-! ### The filter -/

theorem readFilter : Table.readFilter o (tableParts o c groups).flatten (footerOf o c groups).metaindexHandle =
    o.filterPolicy.map fun P => (P, FilterBlockReader.new (filterBlock P (filterBlocks o groups []))) := by
  unfold Table.readFilter
  cases hP : o.filterPolicy with
  | none => rfl
  | some P =>
    have hraw : filterRaw o groups = some (filterBlock P (filterBlocks o groups [])) := by
      rw [filterRaw, hP]
      rfl
    have hfilter := h.filter_lt _ hraw
    have hhandle : filterHandleOf o groups = ⟨(groups.map (dataBlockBytes o)).flatten.length,
        (filterBlock P (filterBlocks o groups [])).length⟩ := by
      rw [filterHandleOf, hraw]
    have hfits : (filterHandleOf o groups).Fits := by
      have hfront := h.front_lt
      rw [frontParts, List.flatten_append, List.length_append] at hfront
      rw [hhandle]
      exact ⟨by show (groups.map (dataBlockBytes o)).flatten.length < 2 ^ 64; omega, by
        show (filterBlock P (filterBlocks o groups [])).length < 2 ^ 64; omega⟩
    -- the metaindex is a block of one entry
    have hmeta : metaindexRaw o groups = rawBlock o [(filterName P, (filterHandleOf o groups).encodeTo)] := by
      rw [metaindexRaw, hP]
      rfl
    obtain ⟨chunks, shared, starts, himage⟩ := @rawBlock_image Bytes bytewiseComparator o h.interval
      [(filterName P, (filterHandleOf o groups).encodeTo)] (List.cons_ne_nil _ _)
      (fun kv _ => Nat.zero_le _) (hmeta ▸ h.metaindex_lt)
    have hnew := himage.newIterator
    have hseek := (himage.any_follows (List.pairwise_singleton _ _)).seek_current
      ⟨_, hnew.1, hnew.2⟩ (filterName P)
    have hfind : [(filterName P, (filterHandleOf o groups).encodeTo)].find?
        (fun kv => !bytewiseComparator.less kv.1 (filterName P)) =
        some (filterName P, (filterHandleOf o groups).encodeTo) := by
      simp [Comparator.less]
    rw [hfind] at hseek
    have hdecode := BlockHandle.decodeFrom_encodeTo hfits []
    rw [List.append_nil] at hdecode
    have hread : readBlock (tableParts o c groups).flatten (filterHandleOf o groups) =
        .ok (filterBlock P (filterBlocks o groups [])) := by
      rw [hhandle, tableParts, frontParts, hraw, List.append_assoc]
      exact readBlock_middle rfl
    simp only [Option.bind_eq_bind, Option.bind_some, readBlock_metaindex, hmeta, Except.toOption, hseek,
      if_true, hdecode, hread, Option.map_some]

/-- **The file is opened.** -/
theorem openTable : Table.openTable o (tableParts o c groups).flatten =
    .ok ⟨(tableParts o c groups).flatten, Block.new (indexRaw o c groups),
      o.filterPolicy.map fun P => (P, FilterBlockReader.new (filterBlock P (filterBlocks o groups [])))⟩ := by
  have hsplit : (tableParts o c groups).flatten = (frontParts o groups ++
      [blockBytes (metaindexRaw o groups) .none, blockBytes (indexRaw o c groups) .none]).flatten ++
        (footerOf o c groups).encodeTo := by
    simp only [tableParts, List.flatten_append, List.flatten_cons, List.flatten_nil, List.append_nil,
      List.append_assoc]
  have hlen := congrArg List.length hsplit
  rw [List.length_append, Footer.length_encodeTo] at hlen
  have hdrop : (tableParts o c groups).flatten.drop
      ((tableParts o c groups).flatten.length - Footer.kEncodedLength) = (footerOf o c groups).encodeTo := by
    rw [hlen, Nat.add_sub_cancel, hsplit, List.drop_left]
  have hfits := h.footer_fits
  rw [Table.openTable, if_neg (by omega), hdrop, Footer.decodeFrom_encodeTo hfits.1 hfits.2]
  simp only [bind, Except.bind]
  rw [readBlock_index, h.readFilter]

end Written

end Ambar
