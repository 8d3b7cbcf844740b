import Ambar.Table.BlockBuilder
import Ambar.Table.Comparator
import Ambar.Table.Filter
import Ambar.Table.Format

/-!
# Building tables

`TableBuilder` (`src/table_builder.cpp`): entries are gathered into data blocks, each
written when it has grown to `block_size`; then follow the filter block, the metaindex,
the index and the footer. Writing does not fail here.

* `TableBuilder.state`: the builder after any entries, as a function of the data blocks
  they were cut into.
* `TableBuilder.foldl_add`, `TableBuilder.finish_file`: adding entries, and the file.
-/

namespace Ambar

open Lib (offsetAt)

/-- What a table reads of `Options`. -/
structure TableOptions where
  blockSize : ℕ
  blockRestartInterval : ℕ
  compression : CompressionType
  filterPolicy : Option FilterPolicy

/-- `class TableBuilder`. `file` is what was written, `offset_` its length; `blocks`, which
    the code does not keep, are the blocks written, as they are before compression. -/
structure TableBuilder where
  file : Bytes
  dataBlock : BlockBuilder
  indexBlock : BlockBuilder
  lastKey : Bytes
  pendingIndexEntry : Bool
  pendingHandle : BlockHandle
  filterBlock : Option (FilterPolicy × FilterBlockBuilder)
  blocks : List Bytes

/-- How a compressible block is stored (lines 94–117). -/
def storedBlock (o : TableOptions) (raw : Bytes) : Bytes × CompressionType :=
  if o.compression = .lz ∧ (compressBlock raw []).length < raw.length - raw.length / 8 then
    (compressBlock raw [], .lz)
  else (raw, .none)

/-- The key of the filter block in the metaindex (lines 163–164). -/
def filterName (P : FilterPolicy) : Bytes := ("filter." ++ P.name).toUTF8.data.toList

namespace TableBuilder

/-- The constructor (lines 12–29). -/
def new (o : TableOptions) : TableBuilder where
  file := []
  dataBlock := .new
  indexBlock := .new
  lastKey := []
  pendingIndexEntry := false
  pendingHandle := ⟨0, 0⟩
  filterBlock := o.filterPolicy.map fun P => (P, FilterBlockBuilder.new.startBlock P 0)
  blocks := []

/-- `write_raw_block` (lines 120–140). -/
def writeRawBlock (b : TableBuilder) (contents : Bytes) (type : CompressionType) :
    BlockHandle × TableBuilder :=
  (⟨b.file.length, contents.length⟩, { b with file := b.file ++ blockBytes contents type })

/-- `write_block` (lines 91–118). -/
def writeBlock (o : TableOptions) (b : TableBuilder) (raw : Bytes) (compressible : Bool) :
    BlockHandle × TableBuilder :=
  let (contents, type) := if compressible then storedBlock o raw else (raw, .none)
  { b with blocks := b.blocks ++ [raw] }.writeRawBlock contents type

/-- `flush` (lines 72–89). -/
def flush (o : TableOptions) (b : TableBuilder) : TableBuilder :=
  if b.dataBlock.entries = 0 then b
  else
    let (handle, b) := b.writeBlock o b.dataBlock.finish true
    { b with
      dataBlock := .new
      pendingIndexEntry := true
      pendingHandle := handle
      filterBlock := b.filterBlock.map fun (P, f) => (P, f.startBlock P b.file.length) }

/-- The index entry of the last block, under a key at or after it (lines 48–55, 174–181). -/
def addIndexEntry (b : TableBuilder) (key : Bytes) : TableBuilder :=
  if b.pendingIndexEntry then
    { b with
      lastKey := key
      indexBlock := b.indexBlock.add 1 (key, b.pendingHandle.encodeTo)
      pendingIndexEntry := false }
  else b

variable {κ : Type}

/-- An entry goes into the filter and the data block (lines 48–65). -/
def addEntry (o : TableOptions) (c : Comparator κ) (b : TableBuilder) (kv : KeyValue) : TableBuilder :=
  let b := b.addIndexEntry (c.findShortestSeparator b.lastKey kv.1)
  { b with
    filterBlock := b.filterBlock.map fun (P, f) => (P, f.addKey kv.1)
    lastKey := kv.1
    dataBlock := b.dataBlock.add o.blockRestartInterval kv }

/-- `add` (lines 39–70). -/
def add (o : TableOptions) (c : Comparator κ) (b : TableBuilder) (kv : KeyValue) : TableBuilder :=
  let b := b.addEntry o c kv
  if o.blockSize ≤ b.dataBlock.currentSizeEstimate then b.flush o else b

/-- The metaindex block (lines 157–168). -/
def metaindexBlock (o : TableOptions) (filterBlock : Option FilterPolicy) (filterHandle : BlockHandle) :
    BlockBuilder :=
  match filterBlock with
  | none => .new
  | some P => BlockBuilder.new.add o.blockRestartInterval (filterName P, filterHandle.encodeTo)

/-- The filter block, if there is a filter (lines 151–154). -/
def writeFilter (b : TableBuilder) : BlockHandle × TableBuilder :=
  match b.filterBlock with
  | none => (⟨0, 0⟩, b)
  | some (P, f) => { b with blocks := b.blocks ++ [f.finish P] }.writeRawBlock (f.finish P) .none

/-- The metaindex is written (lines 159–170). -/
def writeMetaindex (o : TableOptions) (filterHandle : BlockHandle) (b : TableBuilder) :
    BlockHandle × TableBuilder :=
  b.writeBlock o (metaindexBlock o (b.filterBlock.map Prod.fst) filterHandle).finish false

/-- The index is completed and written (lines 172–183). -/
def writeIndex (o : TableOptions) (c : Comparator κ) (b : TableBuilder) : BlockHandle × TableBuilder :=
  let b := b.addIndexEntry (c.findShortSuccessor b.lastKey)
  b.writeBlock o b.indexBlock.finish false

/-- `finish` (lines 142–199). -/
def finish (o : TableOptions) (c : Comparator κ) (b : TableBuilder) : TableBuilder :=
  let (filterHandle, b) := (b.flush o).writeFilter
  let (metaindexHandle, b) := b.writeMetaindex o filterHandle
  let (indexHandle, b) := b.writeIndex o c
  { b with file := b.file ++ (Footer.mk metaindexHandle indexHandle).encodeTo }

end TableBuilder

/-! ## The builder as a function of its data blocks -/

/-- The first key of a block. -/
def firstKeyOf (kvs : List KeyValue) : Bytes := (kvs.head?.map Prod.fst).getD []

/-- The last key of a block. -/
def lastKeyOf (kvs : List KeyValue) : Bytes := (kvs.getLast?.map Prod.fst).getD []

section

variable (o : TableOptions)

/-- A block of these entries. -/
def rawBlock (kvs : List KeyValue) : Bytes :=
  (kvs.foldl (BlockBuilder.add o.blockRestartInterval) .new).finish

/-- The block as it stands in the file. -/
def dataBlockBytes (kvs : List KeyValue) : Bytes :=
  blockBytes (storedBlock o (rawBlock o kvs)).1 (storedBlock o (rawBlock o kvs)).2

/-- The handle of data block `i`. -/
def handleAt (groups : List (List KeyValue)) (i : ℕ) : BlockHandle :=
  ⟨offsetAt (groups.map (dataBlockBytes o)) i,
    (groups[i]?.map fun g => (storedBlock o (rawBlock o g)).1.length).getD 0⟩

/-- The data blocks as the filter block meets them, the open one last. -/
def filterBlocks (groups : List (List KeyValue)) (cur : List KeyValue) : List (ℕ × List Bytes) :=
  ((List.range (groups.length + 1)).map fun i => (offsetAt (groups.map (dataBlockBytes o)) i,
    ((groups ++ [cur]).getD i []).map Prod.fst))

variable {κ : Type} (c : Comparator κ)

/-- The entries of the index: one for each block that is known to be followed by another. -/
def indexEntries (groups : List (List KeyValue)) (cur : List KeyValue) : List KeyValue :=
  (List.range (if cur = [] then groups.length - 1 else groups.length)).map fun i =>
    (c.findShortestSeparator (lastKeyOf (groups.getD i []))
      (firstKeyOf ((groups ++ [cur]).getD (i + 1) [])), (handleAt o groups i).encodeTo)

/-- The entries of the finished index. -/
def fullIndex (groups : List (List KeyValue)) : List KeyValue :=
  indexEntries o c groups [] ++ [(c.findShortSuccessor (lastKeyOf groups.flatten),
    (handleAt o groups (groups.length - 1)).encodeTo)]

/-- The index block. -/
def indexRaw (groups : List (List KeyValue)) : Bytes :=
  ((fullIndex o c groups).foldl (BlockBuilder.add 1) .new).finish

/-- The filter block, if there is one. -/
def filterRaw (groups : List (List KeyValue)) : Option Bytes :=
  o.filterPolicy.map fun P => filterBlock P (filterBlocks o groups [])

/-- The handle of the filter block. -/
def filterHandleOf (groups : List (List KeyValue)) : BlockHandle :=
  match filterRaw o groups with
  | none => ⟨0, 0⟩
  | some contents => ⟨(groups.map (dataBlockBytes o)).flatten.length, contents.length⟩

/-- The metaindex block. -/
def metaindexRaw (groups : List (List KeyValue)) : Bytes :=
  (TableBuilder.metaindexBlock o o.filterPolicy (filterHandleOf o groups)).finish

/-- The blocks of the file before the metaindex. -/
def frontParts (groups : List (List KeyValue)) : List Bytes :=
  groups.map (dataBlockBytes o) ++ (filterRaw o groups).toList.map (blockBytes · .none)

/-- The footer. -/
def footerOf (groups : List (List KeyValue)) : Footer where
  metaindexHandle := ⟨(frontParts o groups).flatten.length, (metaindexRaw o groups).length⟩
  indexHandle := ⟨(frontParts o groups ++ [blockBytes (metaindexRaw o groups) .none]).flatten.length,
    (indexRaw o c groups).length⟩

/-- The parts of the file. -/
def tableParts (groups : List (List KeyValue)) : List Bytes :=
  frontParts o groups ++ [blockBytes (metaindexRaw o groups) .none, blockBytes (indexRaw o c groups) .none,
    (footerOf o c groups).encodeTo]

/-- The builder after data blocks and an open one. -/
def TableBuilder.state (groups : List (List KeyValue)) (cur : List KeyValue) : TableBuilder where
  file := (groups.map (dataBlockBytes o)).flatten
  dataBlock := cur.foldl (BlockBuilder.add o.blockRestartInterval) .new
  indexBlock := (indexEntries o c groups cur).foldl (BlockBuilder.add 1) .new
  lastKey := lastKeyOf (groups.flatten ++ cur)
  pendingIndexEntry := decide (cur = [] ∧ groups ≠ [])
  pendingHandle := handleAt o groups (groups.length - 1)
  filterBlock := o.filterPolicy.map fun P =>
    (P, (filterBlocks o groups cur).foldl (FilterBlockBuilder.addBlock P) .new)
  blocks := groups.map (rawBlock o)

end

variable {o : TableOptions} {κ : Type} {c : Comparator κ} {groups : List (List KeyValue)}
  {cur : List KeyValue} {kv : KeyValue}

theorem TableBuilder.new_eq : TableBuilder.new o = TableBuilder.state o c [] [] := by
  have hindex : indexEntries o c [] [] = [] := by simp [indexEntries]
  unfold TableBuilder.new TableBuilder.state
  rw [hindex, TableBuilder.mk.injEq]
  refine ⟨rfl, rfl, rfl, rfl, by simp, rfl, ?_, rfl⟩
  simp [filterBlocks, FilterBlockBuilder.addBlock]

theorem lastKeyOf_append {kvs : List KeyValue} (hne : kvs ≠ []) (l : List KeyValue) :
    lastKeyOf (l ++ kvs) = lastKeyOf kvs := by
  rw [lastKeyOf, List.getLast?_append_of_ne_nil _ hne, lastKeyOf]

theorem firstKeyOf_append {kvs : List KeyValue} (hne : kvs ≠ []) (l : List KeyValue) :
    firstKeyOf (kvs ++ l) = firstKeyOf kvs := by
  obtain ⟨x, xs, rfl⟩ := List.exists_cons_of_ne_nil hne
  rfl

theorem getD_append_of_lt {α : Type*} {l : List α} {i : ℕ} (h : i < l.length) (l' : List α) (d : α) :
    (l ++ l').getD i d = l.getD i d := by
  rw [List.getD_eq_getElem?_getD, List.getElem?_append_left h, List.getD_eq_getElem?_getD]

theorem getD_append_length {α : Type*} (l : List α) (x d : α) : (l ++ [x]).getD l.length d = x := by
  rw [List.getD_eq_getElem?_getD, List.getElem?_append_right le_rfl, Nat.sub_self]
  rfl

/-! ### Steps -/

/-- The index entries when the open block grows. -/
theorem indexEntries_append (hne : cur ≠ []) :
    indexEntries o c groups (cur ++ [kv]) = indexEntries o c groups cur := by
  unfold indexEntries
  rw [if_neg hne, if_neg (by simp)]
  refine List.map_congr_left fun i hi => ?_
  rw [List.mem_range] at hi
  by_cases hlast : i + 1 < groups.length
  · rw [getD_append_of_lt hlast, getD_append_of_lt hlast]
  · rw [show i + 1 = groups.length by omega, getD_append_length, getD_append_length,
      firstKeyOf_append hne]

/-- The index entries when a new block is opened: one more. -/
theorem indexEntries_open (hgroups : groups ≠ []) :
    indexEntries o c groups [kv] = indexEntries o c groups [] ++
      [(c.findShortestSeparator (lastKeyOf (groups.getD (groups.length - 1) [])) kv.1,
        (handleAt o groups (groups.length - 1)).encodeTo)] := by
  have hpos := List.length_pos_iff.mpr hgroups
  unfold indexEntries
  rw [if_pos rfl, if_neg (by simp)]
  conv_lhs => rw [← Nat.sub_add_cancel hpos, List.range_succ, List.map_append, List.map_singleton]
  congr 1
  · refine List.map_congr_left fun i hi => ?_
    rw [List.mem_range] at hi
    rw [getD_append_of_lt (by omega), getD_append_of_lt (by omega)]
  · rw [Nat.sub_add_cancel hpos, getD_append_length]
    rfl

theorem offsetAt_dataBlocks (g : List KeyValue) {i : ℕ} (hi : i ≤ groups.length) :
    offsetAt ((groups ++ [g]).map (dataBlockBytes o)) i = offsetAt (groups.map (dataBlockBytes o)) i := by
  rw [List.map_append, Lib.offsetAt_append (by rwa [List.length_map])]

theorem handleAt_append (g : List KeyValue) {i : ℕ} (hi : i < groups.length) :
    handleAt o (groups ++ [g]) i = handleAt o groups i := by
  rw [handleAt, handleAt, offsetAt_dataBlocks g hi.le, List.getElem?_append_left hi]

theorem handleAt_last (g : List KeyValue) :
    handleAt o (groups ++ [g]) groups.length =
      ⟨(groups.map (dataBlockBytes o)).flatten.length, (storedBlock o (rawBlock o g)).1.length⟩ := by
  rw [handleAt, offsetAt_dataBlocks g le_rfl, List.getElem?_append_right le_rfl, Nat.sub_self]
  congr 1
  rw [← Lib.offsetAt_length, List.length_map]

/-- The index entries when the open block is written: no other. -/
theorem indexEntries_flush (hne : cur ≠ []) :
    indexEntries o c (groups ++ [cur]) [] = indexEntries o c groups cur := by
  unfold indexEntries
  rw [if_pos rfl, if_neg hne, List.length_append, List.length_singleton, Nat.add_sub_cancel]
  refine List.map_congr_left fun i hi => ?_
  rw [List.mem_range] at hi
  rw [handleAt_append cur hi, getD_append_of_lt hi, getD_append_of_lt (by simp; omega)]

theorem filterBlocks_append (P : FilterPolicy) :
    (filterBlocks o groups (cur ++ [kv])).foldl (FilterBlockBuilder.addBlock P) .new =
      ((filterBlocks o groups cur).foldl (FilterBlockBuilder.addBlock P) .new).addKey kv.1 := by
  have hsplit : ∀ kvs : List KeyValue, filterBlocks o groups kvs =
      ((List.range groups.length).map fun i => (offsetAt (groups.map (dataBlockBytes o)) i,
        (groups.getD i []).map Prod.fst)) ++
        [(offsetAt (groups.map (dataBlockBytes o)) groups.length, kvs.map Prod.fst)] := by
    intro kvs
    rw [filterBlocks, List.range_succ, List.map_append, List.map_singleton, getD_append_length]
    congr 1
    refine List.map_congr_left fun i hi => ?_
    rw [getD_append_of_lt (List.mem_range.mp hi)]
  rw [hsplit, hsplit, List.foldl_append, List.foldl_append]
  simp only [List.foldl_cons, List.foldl_nil, FilterBlockBuilder.addBlock, List.map_append,
    List.map_cons, List.map_nil, List.foldl_append]

theorem filterBlocks_flush :
    filterBlocks o (groups ++ [cur]) [] =
      filterBlocks o groups cur ++ [((((groups ++ [cur]).map (dataBlockBytes o)).flatten).length, [])] := by
  have hlen : (groups ++ [cur]).length = groups.length + 1 := by simp
  unfold filterBlocks
  rw [hlen, List.range_succ, List.map_append, List.map_singleton]
  congr 1
  · refine List.map_congr_left fun i hi => ?_
    rw [List.mem_range] at hi
    rw [offsetAt_dataBlocks cur (by omega), getD_append_of_lt (by omega)]
  · rw [← hlen, getD_append_length, ← @List.length_map _ _ (groups ++ [cur]) (dataBlockBytes o),
      Lib.offsetAt_length]
    rfl

namespace TableBuilder

theorem entries_foldl_add (n : ℕ) (kvs : List KeyValue) :
    ∀ b : BlockBuilder, (kvs.foldl (BlockBuilder.add n) b).entries = b.entries + kvs.length := by
  induction kvs with
  | nil => exact fun _ => rfl
  | cons kv kvs ih =>
    intro b
    rw [List.foldl_cons, ih, List.length_cons]
    show b.entries + 1 + kvs.length = _
    omega

/-- **Writing the open block.** -/
theorem flush_state (hne : cur ≠ []) : (state o c groups cur).flush o = state o c (groups ++ [cur]) [] := by
  have hentries : ¬ (state o c groups cur).dataBlock.entries = 0 := by
    have := entries_foldl_add o.blockRestartInterval cur .new
    have hpos := List.length_pos_iff.mpr hne
    show ¬ (cur.foldl (BlockBuilder.add o.blockRestartInterval) BlockBuilder.new).entries = 0
    rw [this]
    omega
  have hfile : (groups.map (dataBlockBytes o)).flatten ++ dataBlockBytes o cur =
      ((groups ++ [cur]).map (dataBlockBytes o)).flatten := by
    rw [List.map_append, List.flatten_append]
    simp
  rw [flush, if_neg hentries]
  unfold writeBlock writeRawBlock
  simp only [if_true]
  unfold state
  rw [TableBuilder.mk.injEq]
  refine ⟨hfile, rfl, ?_, ?_, ?_, ?_, ?_, ?_⟩
  · rw [indexEntries_flush hne]
  · rw [List.flatten_append]
    simp
  · simp
  · rw [List.length_append, List.length_singleton, Nat.add_sub_cancel, handleAt_last]
    rfl
  · rw [Option.map_map]
    congr 1
    funext P
    simp only [Function.comp_apply, filterBlocks_flush, List.foldl_append, List.foldl_cons, List.foldl_nil]
    rw [FilterBlockBuilder.addBlock, ← hfile]
    rfl
  · rw [List.map_append]
    rfl

/-- **An entry joins the open block.** -/
theorem addEntry_state (hgroups : ∀ g ∈ groups, g ≠ []) :
    (state o c groups cur).addEntry o c kv = state o c groups (cur ++ [kv]) := by
  have hlast : lastKeyOf (groups.flatten ++ (cur ++ [kv])) = kv.1 := by
    rw [lastKeyOf_append (by simp), lastKeyOf]
    simp
  have hdata : (cur.foldl (BlockBuilder.add o.blockRestartInterval) .new).add o.blockRestartInterval kv =
      (cur ++ [kv]).foldl (BlockBuilder.add o.blockRestartInterval) .new := by
    rw [List.foldl_append]
    rfl
  have hfilter : (o.filterPolicy.map fun P =>
        (P, (filterBlocks o groups cur).foldl (FilterBlockBuilder.addBlock P) .new)).map
        (fun (P, f) => (P, f.addKey kv.1)) =
      o.filterPolicy.map fun P =>
        (P, (filterBlocks o groups (cur ++ [kv])).foldl (FilterBlockBuilder.addBlock P) .new) := by
    rw [Option.map_map]
    congr 1
    funext P
    rw [filterBlocks_append]
    rfl
  by_cases hpending : cur = [] ∧ groups ≠ []
  · -- a block was just written, and its index entry is due
    obtain ⟨rfl, hne⟩ := hpending
    have hpos := List.length_pos_iff.mpr hne
    have hmem : groups.getD (groups.length - 1) [] ∈ groups := by
      rw [List.getD_eq_getElem?_getD, List.getElem?_eq_getElem (by omega)]
      exact List.getElem_mem _
    have hkey : lastKeyOf (groups.flatten ++ []) = lastKeyOf (groups.getD (groups.length - 1) []) := by
      have hsplit : groups = groups.take (groups.length - 1) ++ [groups.getD (groups.length - 1) []] := by
        conv_lhs => rw [← List.take_append_drop (groups.length - 1) groups]
        congr 1
        rw [List.drop_eq_getElem_cons (by omega), List.getD_eq_getElem?_getD,
          List.getElem?_eq_getElem (by omega), Option.getD_some, List.drop_eq_nil_of_le (by omega)]
      rw [List.append_nil]
      conv_lhs => rw [hsplit, List.flatten_append, List.flatten_singleton]
      exact lastKeyOf_append (hgroups _ hmem) _
    rw [addEntry, addIndexEntry, if_pos (by simp [state, hne])]
    unfold state
    rw [TableBuilder.mk.injEq]
    refine ⟨rfl, hdata, ?_, hlast.symm, by simp, rfl, hfilter, rfl⟩
    rw [List.nil_append, indexEntries_open hne, List.foldl_append, hkey]
    rfl
  · rw [addEntry, addIndexEntry, if_neg (by simpa [state] using hpending)]
    unfold state
    rw [TableBuilder.mk.injEq]
    refine ⟨rfl, hdata, ?_, hlast.symm, ?_, rfl, hfilter, rfl⟩
    · by_cases hcur : cur = []
      · have hnil : groups = [] := by
          by_contra hne
          exact hpending ⟨hcur, hne⟩
        rw [hnil, hcur]
        rfl
      · rw [indexEntries_append hcur]
    · rw [decide_eq_false hpending]
      simp

/-- **Adding entries**: they are cut into data blocks and an open one. -/
theorem foldl_add (o : TableOptions) (c : Comparator κ) (kvs : List KeyValue) :
    ∀ {groups : List (List KeyValue)} {cur : List KeyValue}, (∀ g ∈ groups, g ≠ []) →
      ∃ groups' cur', kvs.foldl (add o c) (state o c groups cur) = state o c groups' cur' ∧
        groups'.flatten ++ cur' = groups.flatten ++ cur ++ kvs ∧ ∀ g ∈ groups', g ≠ [] := by
  induction kvs with
  | nil => exact fun h => ⟨_, _, rfl, by rw [List.append_nil], h⟩
  | cons kv kvs ih =>
    intro groups cur hgroups
    rw [List.foldl_cons, add, addEntry_state hgroups]
    split_ifs with hfull
    · rw [flush_state (by simp)]
      obtain ⟨groups', cur', heq, hflat, hne⟩ := @ih (groups ++ [cur ++ [kv]]) [] (by
        intro g hg
        rcases List.mem_append.mp hg with hg | hg
        · exact hgroups g hg
        · rw [List.mem_singleton.mp hg]
          simp)
      exact ⟨groups', cur', heq, by rw [hflat]; simp, hne⟩
    · obtain ⟨groups', cur', heq, hflat, hne⟩ := @ih groups (cur ++ [kv]) hgroups
      exact ⟨groups', cur', heq, by rw [hflat]; simp, hne⟩

/-- The filter block is written after the data blocks. -/
theorem writeFilter_state :
    (state o c groups []).writeFilter = (filterHandleOf o groups, { state o c groups [] with
      file := (frontParts o groups).flatten
      blocks := groups.map (rawBlock o) ++ (filterRaw o groups).toList }) := by
  unfold writeFilter filterHandleOf frontParts filterRaw state
  cases o.filterPolicy with
  | none => simp
  | some P => simp [writeRawBlock, Ambar.filterBlock]

/-- The end of the file, once the filter block is written. -/
theorem finish_eq {b : TableBuilder} {filterHandle : BlockHandle} {file : Bytes} {blocks : List Bytes}
    {metaindex index : Bytes} (hflush : b.flush o = b)
    (hfilter : b.writeFilter = (filterHandle, { b with file := file, blocks := blocks }))
    (hpending : b.pendingIndexEntry = true)
    (hmetaindex : metaindex = (metaindexBlock o (b.filterBlock.map Prod.fst) filterHandle).finish)
    (hindex : index = (b.indexBlock.add 1 (c.findShortSuccessor b.lastKey, b.pendingHandle.encodeTo)).finish) :
    (b.finish o c).file = file ++ blockBytes metaindex .none ++ blockBytes index .none ++
        (Footer.mk ⟨file.length, metaindex.length⟩
          ⟨(file ++ blockBytes metaindex .none).length, index.length⟩).encodeTo ∧
      (b.finish o c).blocks = blocks ++ [metaindex] ++ [index] := by
  have hmeta : ({ b with file := file, blocks := blocks } : TableBuilder).writeMetaindex o filterHandle =
      (⟨file.length, metaindex.length⟩, { b with
        file := file ++ blockBytes metaindex .none
        blocks := blocks ++ [metaindex] }) := by
    rw [writeMetaindex, ← hmetaindex]
    rfl
  have hentry : ({ b with file := file ++ blockBytes metaindex .none, blocks := blocks ++ [metaindex] } :
        TableBuilder).writeIndex o c =
      (⟨(file ++ blockBytes metaindex .none).length, index.length⟩, { b with
        file := file ++ blockBytes metaindex .none ++ blockBytes index .none
        blocks := blocks ++ [metaindex] ++ [index]
        lastKey := c.findShortSuccessor b.lastKey
        indexBlock := b.indexBlock.add 1 (c.findShortSuccessor b.lastKey, b.pendingHandle.encodeTo)
        pendingIndexEntry := false }) := by
    rw [writeIndex, addIndexEntry, if_pos hpending, hindex]
    rfl
  rw [finish, hflush, hfilter]
  simp only
  rw [hmeta]
  simp only
  rw [hentry]
  exact ⟨rfl, rfl⟩

/-- **The finished file**: the data blocks, the filter block, the metaindex, the index and
    the footer. -/
theorem finish_state (hne : groups ≠ []) :
    ((state o c groups []).finish o c).file = (tableParts o c groups).flatten ∧
      ((state o c groups []).finish o c).blocks = groups.map (rawBlock o) ++
        (filterRaw o groups).toList ++ [metaindexRaw o groups, indexRaw o c groups] := by
  have hflush : (state o c groups []).flush o = state o c groups [] := by
    rw [flush, if_pos]
    rfl
  have hpending : (state o c groups []).pendingIndexEntry = true := by simp [state, hne]
  have hmetaindex : metaindexRaw o groups = (metaindexBlock o
      ((state o c groups []).filterBlock.map Prod.fst) (filterHandleOf o groups)).finish := by
    rw [metaindexRaw, state, Option.map_map]
    exact congrArg (fun P => (metaindexBlock o P (filterHandleOf o groups)).finish) Option.map_id'.symm
  have hindex : indexRaw o c groups = ((state o c groups []).indexBlock.add 1
      (c.findShortSuccessor (state o c groups []).lastKey,
        (state o c groups []).pendingHandle.encodeTo)).finish := by
    rw [indexRaw, fullIndex, List.foldl_append, List.foldl_cons, List.foldl_nil, state, List.append_nil]
  obtain ⟨hfile, hblocks⟩ := finish_eq hflush writeFilter_state hpending hmetaindex hindex
  refine ⟨?_, ?_⟩
  · rw [hfile, tableParts, footerOf]
    simp only [List.flatten_append, List.flatten_cons, List.flatten_nil, List.append_nil, List.append_assoc]
  · rw [hblocks]
    simp only [List.append_assoc, List.cons_append, List.nil_append]

end TableBuilder

/-- The builder of a table of these entries, finished. -/
def builtTable (o : TableOptions) (c : Comparator κ) (kvs : List KeyValue) : TableBuilder :=
  (kvs.foldl (TableBuilder.add o c) (TableBuilder.new o)).finish o c

/-- **A table's file** is made of its data blocks. -/
theorem builtTable_spec (o : TableOptions) (c : Comparator κ) {kvs : List KeyValue} (hne : kvs ≠ []) :
    ∃ groups : List (List KeyValue), groups ≠ [] ∧ groups.flatten = kvs ∧ (∀ g ∈ groups, g ≠ []) ∧
      (builtTable o c kvs).file = (tableParts o c groups).flatten ∧
      (builtTable o c kvs).blocks = groups.map (rawBlock o) ++
        (filterRaw o groups).toList ++ [metaindexRaw o groups, indexRaw o c groups] := by
  obtain ⟨groups, cur, heq, hflat, hgroups⟩ := @TableBuilder.foldl_add _ o c kvs [] []
    (fun g hg => absurd hg List.not_mem_nil)
  have hstate : builtTable o c kvs = (TableBuilder.state o c groups cur).finish o c := by
    rw [builtTable, TableBuilder.new_eq, heq]
  rw [List.flatten_nil, List.nil_append, List.nil_append] at hflat
  by_cases hcur : cur = []
  · have hgne : groups ≠ [] := by
      rintro rfl
      rw [hcur] at hflat
      exact hne hflat.symm
    obtain ⟨hfile, hblocks⟩ := TableBuilder.finish_state (o := o) (c := c) hgne
    rw [hstate, hcur]
    exact ⟨groups, hgne, by rw [← hflat, hcur, List.append_nil], hgroups, hfile, hblocks⟩
  · -- the open block is written first
    have hfinish : (TableBuilder.state o c groups cur).finish o c =
        (TableBuilder.state o c (groups ++ [cur]) []).finish o c := by
      have hagain : (TableBuilder.state o c (groups ++ [cur]) []).flush o =
          TableBuilder.state o c (groups ++ [cur]) [] := by
        rw [TableBuilder.flush, if_pos]
        rfl
      unfold TableBuilder.finish
      rw [TableBuilder.flush_state hcur, hagain]
    obtain ⟨hfile, hblocks⟩ := @TableBuilder.finish_state o κ c (groups ++ [cur]) (by simp)
    rw [hstate, hfinish]
    refine ⟨groups ++ [cur], by simp, by simpa using hflat, fun g hg => ?_, hfile, hblocks⟩
    rcases List.mem_append.mp hg with hg | hg
    · exact hgroups g hg
    · rw [List.mem_singleton.mp hg]
      exact hcur

end Ambar
