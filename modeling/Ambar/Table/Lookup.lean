import Ambar.Read.Get
import Ambar.Table.Reader
import Ambar.Table.Separators

/-!
# What a table returns

The iterator of a table that was written follows its entries, and `internal_get` hands
out the version of a user key that a reader at a sequence number sees.

* `Written.indexes`, `Written.follows`: the table's iterator.
* `Written.internalGet`: a lookup reads the block behind the first separator at or after
  the key, unless the filter denies it.
* `table_round_trip`: writing, opening, iterating and looking up.
-/

namespace Ambar

open Lib (offsetAt Cursor Follows)

/-- The table that opening the file gives. -/
def writtenTable {κ : Type} (o : TableOptions) (c : Comparator κ) (groups : List (List KeyValue)) : Table where
  file := (tableParts o c groups).flatten
  indexBlock := Block.new (indexRaw o c groups)
  filter := o.filterPolicy.map fun P => (P, FilterBlockReader.new (filterBlock P (filterBlocks o groups [])))

/-- An iterator of a block that holds these entries. -/
def BlockReads {κ : Type} (c : Comparator κ) (b : Block) (kvs : List KeyValue) (s : AnyIter) (p : Option ℕ) :
    Prop :=
  ∃ x : List Bytes × (ℕ → ℕ) × List ℕ, b.Image c kvs x.1 x.2.1 x.2.2 ∧ AnyIter.Reads b kvs x.1 x.2.2 s p

section

variable {κ : Type} [LinearOrder κ] {c : Comparator κ} {b : Block} {kvs : List KeyValue}

theorem blockReads_follows (hsorted : kvs.Pairwise fun x y => c.rank x.1 < c.rank y.1) :
    Follows (AnyIter.cursor c) (TwoLevels.belowKey c) kvs (BlockReads c b kvs) :=
  Follows.exists_reading fun _ himage => himage.any_follows hsorted

omit [LinearOrder κ] in
theorem BlockReads.status {s : AnyIter} {p : Option ℕ} (h : BlockReads c b kvs s p) : s.status = .ok := by
  obtain ⟨x, -, s', rfl, hs⟩ := h
  exact hs.status

omit [LinearOrder κ] in
theorem Block.Image.blockReads {chunks : List Bytes} {shared : ℕ → ℕ} {starts : List ℕ}
    (h : b.Image c kvs chunks shared starts) : BlockReads c b kvs b.newIterator none :=
  ⟨⟨chunks, shared, starts⟩, h, _, h.newIterator.1, h.newIterator.2⟩

end

namespace Written

variable {κ : Type} [LinearOrder κ] {o : TableOptions} {c : Comparator κ} {groups : List (List KeyValue)}
  {i j : ℕ} {g : List KeyValue} (h : Written o c groups)
include h

theorem openTable_eq : Table.openTable o (tableParts o c groups).flatten = .ok (writtenTable o c groups) :=
  h.openTable

theorem block_image (hi : groups[i]? = some g) :
    ∃ chunks shared starts, (Block.new (rawBlock o g)).Image c g chunks shared starts := by
  have hmem := List.mem_of_getElem? hi
  exact rawBlock_image h.interval (h.blocks_nonempty g hmem)
    (fun kv hkv => h.lengths kv (mem_flatten hi hkv)) (h.raw_lt g hmem)

/-- An index value leads to its block. -/
theorem blockFor {sep : KeyValue} (hsep : (fullIndex o c groups)[i]? = some sep) (hi : groups[i]? = some g) :
    (writtenTable o c groups).blockFor sep.2 = .ok (Block.new (rawBlock o g)) ∧
      BlockHandle.decodeFrom sep.2 = .ok (handleAt o groups i, []) := by
  have hlt := (List.getElem?_eq_some_iff.mp hi).1
  rw [fullIndex_get hlt, Option.some.injEq] at hsep
  have hdecode := BlockHandle.decodeFrom_encodeTo (h.handleAt_fits hlt) []
  rw [List.append_nil] at hdecode
  rw [← hsep, Table.blockFor]
  simp only [hdecode, bind, Except.bind]
  have hread : readBlock (writtenTable o c groups).file (handleAt o groups i) = .ok (rawBlock o g) :=
    h.readBlock_data hi
  rw [hread]
  exact ⟨rfl, trivial⟩

theorem handle_inj {sep sep' : KeyValue} (hi : (fullIndex o c groups)[i]? = some sep)
    (hj : (fullIndex o c groups)[j]? = some sep') (heq : sep.2 = sep'.2) : i = j := by
  obtain ⟨g, hg⟩ := exists_group h.nonempty hi
  obtain ⟨g', hg'⟩ := exists_group h.nonempty hj
  have hdecode := (h.blockFor hi hg).2
  rw [heq, (h.blockFor hj hg').2, Except.ok.injEq, Prod.mk.injEq] at hdecode
  have hoffset : offsetAt (groups.map (dataBlockBytes o)) j = offsetAt (groups.map (dataBlockBytes o)) i :=
    congrArg BlockHandle.offset hdecode.1
  have hne : ∀ p ∈ groups.map (dataBlockBytes o), p ≠ [] := by
    intro p hp hnil
    obtain ⟨g, -, rfl⟩ := List.mem_map.mp hp
    have hlen := congrArg List.length hnil
    rw [dataBlockBytes, length_blockBytes] at hlen
    simp [kBlockTrailerSize] at hlen
  have hi' := (List.getElem?_eq_some_iff.mp hg).1
  have hj' := (List.getElem?_eq_some_iff.mp hg').1
  rcases lt_trichotomy i j with hlt | heq | hlt
  · have := Lib.offsetAt_strictMono hne hlt (by rw [List.length_map]; omega)
    omega
  · exact heq
  · have := Lib.offsetAt_strictMono hne hlt (by rw [List.length_map]; omega)
    omega

/-- The index of the table. -/
theorem indexes : ((writtenTable o c groups).levels c).Indexes (TwoLevels.belowKey c) (fullIndex o c groups)
    groups (BlockReads c (Block.new (indexRaw o c groups)) (fullIndex o c groups))
    (fun i d q => ∃ g, groups[i]? = some g ∧ BlockReads c (Block.new (rawBlock o g)) g d q)
    (fun _ => False) fun _ => False where
  turns := by
    obtain ⟨chunks, shared, starts, himage⟩ := h.index_image
    have := himage.entries_le
    show _ ≤ (Block.new (indexRaw o c groups)).data.length + 2
    omega
  length := length_fullIndex h.nonempty
  index_follows := (blockReads_follows h.index_sorted).unless
  index_status := fun _ _ hs => hs.status
  index_failed := fun _ hf => hf.elim
  data_follows := by
    intro i g hg
    have hRD : (fun d q => ∃ g', groups[i]? = some g' ∧ BlockReads c (Block.new (rawBlock o g')) g' d q) =
        BlockReads c (Block.new (rawBlock o g)) g := by
      funext d q
      rw [hg]
      simp
    rw [hRD]
    exact (blockReads_follows (h.block_sorted hg)).unless
  data_status := fun _ _ _ ⟨_, _, hd⟩ => hd.status
  data_failed := fun _ hf => hf.elim
  data_sticky := fun _ _ hf => hf
  opened := by
    intro i sep hsep
    obtain ⟨g, hg⟩ := exists_group h.nonempty hsep
    obtain ⟨chunks, shared, starts, himage⟩ := h.block_image hg
    refine Or.inl ⟨g, hg, ?_⟩
    show BlockReads c _ g ((writtenTable o c groups).blockReader sep.2) none
    rw [Table.blockReader, (h.blockFor hsep hg).1]
    exact himage.blockReads
  handles := by
    rintro i j sep sep' hi hj heq d q hd
    rwa [← h.handle_inj hi hj heq]
  before := by
    intro i sep g hsep hg k hk e he
    exact decide_eq_true (((h.separator hsep hg).2.1 e he).trans_lt (of_decide_eq_true hk))
  after := by
    intro i j sep g hij hsep hg k hk e he
    have hlt := (List.getElem?_eq_some_iff.mp hg).1
    obtain ⟨n, hn⟩ : ∃ n, groups[i + 1]? = some n := ⟨_, List.getElem?_eq_getElem (by omega)⟩
    obtain ⟨g₀, hg₀⟩ := exists_group h.nonempty hsep
    have hnext := ((h.separator hsep hg₀).2.2 n hn).2
    have hsepe : c.rank sep.1 < c.rank e.1 := by
      rcases Nat.lt_or_ge (i + 1) j with hlt | hge
      · obtain ⟨x, hx⟩ := List.exists_mem_of_ne_nil n (h.blocks_nonempty n (List.mem_of_getElem? hn))
        exact (hnext x hx).trans (h.blocks_sorted hn hg hlt hx he)
      · obtain rfl : j = i + 1 := by omega
        obtain rfl : n = g := Option.some.inj (hn.symm.trans hg)
        exact hnext e he
    exact decide_eq_false (not_lt.mpr ((not_lt.mp (of_decide_eq_false hk)).trans hsepe.le))

/-- **The iterator of the table** follows its entries. -/
theorem follows : ∃ R, Follows ((writtenTable o c groups).levels c).twoLevelCursor (TwoLevels.belowKey c)
    groups.flatten R ∧ R (writtenTable o c groups).newIterator none := by
  obtain ⟨chunks, shared, starts, himage⟩ := h.index_image
  refine ⟨_, h.indexes.followsUnless.follows fun t ht => ?_, TwoLevels.Indexes.new himage.blockReads id⟩
  rcases ht.1 with hf | ⟨_, _, hf⟩ <;> exact hf

/-! ### Looking up -/

/-- **A lookup** asks the block behind the first separator at or after the key. -/
theorem internalGet (key : Bytes) :
    (writtenTable o c groups).internalGet c key =
      match (fullIndex o c groups).find? fun sep => !c.less sep.1 key with
      | none => .ok none
      | some sep =>
        if (writtenTable o c groups).filterDenies sep.2 key then .ok none
        else ((writtenTable o c groups).blockFor sep.2).bind fun block => block.find c key := by
  obtain ⟨chunks, shared, starts, himage⟩ := h.index_image
  have hfind : (writtenTable o c groups).indexBlock.find c key =
      .ok ((fullIndex o c groups).find? fun sep => !c.less sep.1 key) := himage.find h.index_sorted
  unfold Table.internalGet
  simp only [hfind, bind, Except.bind]
  cases (fullIndex o c groups).find? fun sep => !c.less sep.1 key with
  | none => rfl
  | some sep => rfl

/-- What the block behind a separator returns. -/
theorem block_find {sep : KeyValue} (hsep : (fullIndex o c groups)[i]? = some sep) (hg : groups[i]? = some g)
    (key : Bytes) : (((writtenTable o c groups).blockFor sep.2).bind fun block => block.find c key) =
      .ok (g.find? fun kv => !c.less kv.1 key) := by
  obtain ⟨chunks, shared, starts, himage⟩ := h.block_image hg
  rw [(h.blockFor hsep hg).1]
  exact himage.find (h.block_sorted hg)

/-- The filter does not deny a key of the block. -/
theorem filterDenies {sees : Bytes → Bytes} (hsound : ∀ P ∈ o.filterPolicy, P.Sound sees) {sep : KeyValue}
    (hsep : (fullIndex o c groups)[i]? = some sep) (hg : groups[i]? = some g) {kv : KeyValue} (hkv : kv ∈ g)
    {key : Bytes} (hsame : sees key = sees kv.1) :
    (writtenTable o c groups).filterDenies sep.2 key = false := by
  unfold Table.filterDenies
  rw [(h.blockFor hsep hg).2]
  cases hP : o.filterPolicy with
  | none =>
    simp only [writtenTable, hP]
    rfl
  | some P =>
    simp only [writtenTable, hP, Option.map_some]
    have hlt := (List.getElem?_eq_some_iff.mp hg).1
    have hlen : (filterBlock P (filterBlocks o groups [])).length < 2 ^ 32 :=
      h.filter_lt _ (by rw [filterRaw, hP]; rfl)
    have hblock : (offsetAt (groups.map (dataBlockBytes o)) i, g.map Prod.fst) ∈ filterBlocks o groups [] := by
      refine List.mem_map.mpr ⟨i, List.mem_range.mpr (by omega), ?_⟩
      rw [getD_append_of_lt hlt, List.getD_eq_getElem?_getD, hg]
      rfl
    have hoffsets : ((filterBlocks o groups []).map Prod.fst).Pairwise (· ≤ ·) := by
      rw [filterBlocks, List.map_map, List.pairwise_map]
      exact List.pairwise_lt_range.imp fun hlt => Lib.offsetAt_mono hlt.le
    have hmatch := keyMayMatch_filterBlock (hsound P hP) hoffsets hlen hblock
      (List.mem_map_of_mem hkv) hsame
    rw [show (handleAt o groups i).offset = offsetAt (groups.map (dataBlockBytes o)) i from rfl, hmatch]
    rfl

/-- The first entry at or after the key is the first in its block. -/
theorem find_first {key : Bytes} (hg : groups[i]? = some g) {kv : KeyValue} (hkv : kv ∈ g)
    (hge : c.less kv.1 key = false)
    (hfirst : ∀ x ∈ groups.flatten, c.rank x.1 < c.rank kv.1 → c.less x.1 key = true) :
    (g.find? fun x => !c.less x.1 key) = some kv := by
  obtain ⟨pre, post, rfl⟩ := List.append_of_mem hkv
  refine List.find?_eq_some_iff_append.mpr ⟨by rw [hge]; rfl, pre, post, rfl, fun x hx => ?_⟩
  have hlt := (List.pairwise_append.mp (h.block_sorted hg)).2.2 x hx kv List.mem_cons_self
  rw [hfirst x (mem_flatten hg (List.mem_append_left _ hx)) hlt]
  rfl

end Written

/-! ## Internal keys -/

/-- An entry as a table holds it. -/
def tableEntry (e : Entry) : KeyValue := (e.key.toBytes, e.value)

/-- `LookupKey::internal_key`. -/
def lookupKey (userKey : Bytes) (snapshot : ℕ) : Bytes := (makeLookupKey userKey snapshot).toBytes

section

variable {u : Bytes} {s : ℕ} {e : Entry}

theorem rank_tableEntry (he : e.key.WellFormed) : internalKeyComparator.rank (tableEntry e).1 = e.key :=
  internalRank_toBytes he.trailer_lt

theorem rank_lookupKey (hs : s ≤ kMaxSequenceNumber) :
    internalKeyComparator.rank (lookupKey u s) = makeLookupKey u s := by
  refine internalRank_toBytes ?_
  show s * 256 + 1 < 2 ^ 64
  unfold kMaxSequenceNumber at hs
  omega

theorem less_lookupKey (he : e.key.WellFormed) (hs : s ≤ kMaxSequenceNumber) :
    (!internalKeyComparator.less (tableEntry e).1 (lookupKey u s)) =
      decide (makeLookupKey u s ≤ e.key) := by
  rw [Comparator.less, rank_tableEntry he, rank_lookupKey hs, ← decide_not, decide_eq_decide, not_lt]

theorem filterKey_lookupKey : filterKey (lookupKey u s) = u := by
  have hlen : (lookupKey u s).length = u.length + 8 := by simp [lookupKey, InternalKey.toBytes]
  rw [filterKey, if_pos (by omega), extractUserKey, hlen, Nat.add_sub_cancel, lookupKey, InternalKey.toBytes]
  exact List.take_left

theorem filterKey_tableEntry (e : Entry) : filterKey (tableEntry e).1 = e.userKey := by
  have hlen : (tableEntry e).1.length = e.key.userKey.length + 8 := by simp [tableEntry, InternalKey.toBytes]
  rw [filterKey, if_pos (by omega), extractUserKey, hlen, Nat.add_sub_cancel, tableEntry, InternalKey.toBytes]
  exact List.take_left

end

namespace Written

variable {o : TableOptions} {groups : List (List KeyValue)} {es : List Entry} {i : ℕ} {u : Bytes} {s : ℕ}
  (h : Written o internalKeyComparator groups) (hes : groups.flatten = es.map tableEntry)
  (hsorted : Entry.Sorted es) (hwf : ∀ e ∈ es, e.key.WellFormed) (hs : s ≤ kMaxSequenceNumber)
include h hwf hs

/-- A separator that is not before the lookup key does not hide a version of its user key
    in a later block. -/
theorem separator_lt {sep : KeyValue} (hsep : (fullIndex o internalKeyComparator groups)[i]? = some sep)
    {j : ℕ} (hij : i < j) {g : List KeyValue} (hg : groups[j]? = some g) {e : Entry} (he : e ∈ es)
    (heg : tableEntry e ∈ g) (hu : e.userKey = u)
    (hfirst : ∀ x ∈ groups.flatten, internalKeyComparator.rank x.1 < e.key →
      internalKeyComparator.less x.1 (lookupKey u s) = true) :
    internalKeyComparator.less sep.1 (lookupKey u s) = true := by
  have hrank := rank_tableEntry (hwf e he)
  have hlt := (List.getElem?_eq_some_iff.mp hg).1
  obtain ⟨n, hn⟩ : ∃ n, groups[i + 1]? = some n := ⟨_, List.getElem?_eq_getElem (by omega)⟩
  obtain ⟨g₀, hg₀⟩ := exists_group h.nonempty hsep
  obtain ⟨x, hx⟩ := List.exists_mem_of_ne_nil g₀ (h.blocks_nonempty g₀ (List.mem_of_getElem? hg₀))
  obtain ⟨last, hlast, hlastKey⟩ := (h.le_lastKeyOf hg₀ hx).2
  rw [((h.separator hsep hg₀).2.2 n hn).1]
  rcases internalShortestSeparator_cases (lastKeyOf g₀) (firstKeyOf n) with heq | huser
  · -- the separator is a key of its block, and the version found is the first at or after the lookup key
    rw [show internalKeyComparator.findShortestSeparator (lastKeyOf g₀) (firstKeyOf n) = lastKeyOf g₀ from
      heq, hlastKey]
    refine hfirst last (mem_flatten hg₀ hlast) ?_
    rw [← hrank]
    exact h.blocks_sorted hg₀ hg hij hlast heg
  · have hle : internalRank (firstKeyOf n) ≤ e.key := by
      rw [← hrank]
      rcases Nat.lt_or_ge (i + 1) j with hlt | hge
      · obtain ⟨y, hy⟩ := List.exists_mem_of_ne_nil n (h.blocks_nonempty n (List.mem_of_getElem? hn))
        exact (h.firstKeyOf_le hn hy).trans (h.blocks_sorted hn hg hlt hy heg).le
      · obtain rfl : j = i + 1 := by omega
        exact h.firstKeyOf_le hn (Option.some.inj (hg.symm.trans hn) ▸ heg)
    refine decide_eq_true ?_
    rw [rank_lookupKey hs]
    refine InternalKey.lt_of_userKey_lt (huser.trans_le ?_)
    rw [makeLookupKey_userKey, ← hu]
    exact InternalKey.userKey_le_of_le hle

include hes hsorted

/-- **The version that is seen** is handed out. -/
theorem internalGet_found (hsound : ∀ P ∈ o.filterPolicy, P.Sound filterKey) {e : Entry}
    (hfound : seekEntry es u s = some e) :
    (writtenTable o internalKeyComparator groups).internalGet internalKeyComparator (lookupKey u s) =
      .ok (some (tableEntry e)) := by
  obtain ⟨hfind, hu⟩ := Option.filter_eq_some_iff.mp hfound
  have hu : e.userKey = u := of_decide_eq_true hu
  obtain ⟨hle, pre, post, hsplit, hpre⟩ := List.find?_eq_some_iff_append.mp hfind
  have he : e ∈ es := hsplit ▸ List.mem_append_right _ List.mem_cons_self
  have hrank := rank_tableEntry (hwf e he)
  have hge : internalKeyComparator.less (tableEntry e).1 (lookupKey u s) = false := by
    have := less_lookupKey (u := u) (hwf e he) hs
    rw [hle] at this
    simpa using this
  -- the entries before it come before the lookup key
  have hfirst : ∀ x ∈ groups.flatten, internalKeyComparator.rank x.1 < e.key →
      internalKeyComparator.less x.1 (lookupKey u s) = true := by
    intro x hx hlt
    rw [hes] at hx
    obtain ⟨e', he', rfl⟩ := List.mem_map.mp hx
    rw [rank_tableEntry (hwf e' he')] at hlt
    have hnot : ¬ makeLookupKey u s ≤ e'.key := by
      rw [hsplit] at he' hsorted
      rcases List.mem_append.mp he' with hp | hp
      · simpa using hpre e' hp
      · rcases List.mem_cons.mp hp with rfl | hp
        · exact absurd hlt (lt_irrefl _)
        · have := (List.pairwise_cons.mp (List.pairwise_append.mp hsorted).2.1).1 e' hp
          exact absurd (hlt.trans this) (lt_irrefl _)
    have := less_lookupKey (u := u) (hwf e' he') hs
    rw [decide_eq_false hnot] at this
    simpa using this
  obtain ⟨g, hg, heg⟩ := List.mem_flatten.mp (hes ▸ List.mem_map_of_mem he : tableEntry e ∈ groups.flatten)
  obtain ⟨j, hj⟩ := List.mem_iff_getElem?.mp hg
  have hlt := (List.getElem?_eq_some_iff.mp hj).1
  have hindex : j < (fullIndex o internalKeyComparator groups).length := by
    rw [length_fullIndex h.nonempty]
    exact hlt
  have hsep := List.getElem?_eq_getElem hindex
  have hsepge : (!internalKeyComparator.less (fullIndex o internalKeyComparator groups)[j].1
      (lookupKey u s)) = true := by
    have hle := (h.separator hsep hj).2.1 _ heg
    have hnot := not_lt.mp (of_decide_eq_false hge)
    rw [Comparator.less, ← decide_not]
    exact decide_eq_true (not_lt.mpr (hnot.trans hle))
  have hfindsep : ((fullIndex o internalKeyComparator groups).find? fun sep =>
      !internalKeyComparator.less sep.1 (lookupKey u s)) =
        some (fullIndex o internalKeyComparator groups)[j] := by
    refine List.find?_eq_some_iff_getElem.mpr ⟨hsepge, j, hindex, rfl, fun i hij => ?_⟩
    rw [h.separator_lt hwf hs (List.getElem?_eq_getElem _) hij hj he heg hu hfirst]
    rfl
  rw [h.internalGet, hfindsep]
  simp only
  rw [h.filterDenies hsound hsep hj heg (by rw [filterKey_lookupKey, filterKey_tableEntry, hu]),
    h.block_find hsep hj, h.find_first hj heg hge (by rwa [hrank])]
  rfl

/-- **Where no version is seen**, nothing is handed out, or an entry of another user key. -/
theorem internalGet_absent (hnone : seekEntry es u s = none) :
    (writtenTable o internalKeyComparator groups).internalGet internalKeyComparator (lookupKey u s) =
        .ok none ∨
      ∃ e ∈ es, e.userKey ≠ u ∧
        (writtenTable o internalKeyComparator groups).internalGet internalKeyComparator (lookupKey u s) =
          .ok (some (tableEntry e)) := by
  have hfinds := seekEntry_finds hsorted hwf u s
  rw [hnone] at hfinds
  rw [h.internalGet]
  cases hfind : (fullIndex o internalKeyComparator groups).find? fun sep =>
      !internalKeyComparator.less sep.1 (lookupKey u s) with
  | none => exact Or.inl rfl
  | some sep =>
    obtain ⟨i, hsep⟩ := List.mem_iff_getElem?.mp (List.mem_of_find?_eq_some hfind)
    obtain ⟨g, hg⟩ := exists_group h.nonempty hsep
    simp only
    split_ifs
    · exact Or.inl rfl
    · rw [h.block_find hsep hg]
      cases hblock : g.find? fun kv => !internalKeyComparator.less kv.1 (lookupKey u s) with
      | none => exact Or.inl rfl
      | some kv =>
        have hmem := mem_flatten hg (List.mem_of_find?_eq_some hblock)
        rw [hes] at hmem
        obtain ⟨e, he, rfl⟩ := List.mem_map.mp hmem
        refine Or.inr ⟨e, he, fun hu => ?_, rfl⟩
        have hge := List.find?_some hblock
        simp only [less_lookupKey (hwf e he) hs, decide_eq_true_eq] at hge
        have hle := (makeLookupKey_le_iff (hwf e he).1 hu).mp hge
        exact absurd (hfinds e he hu) (not_lt.mpr hle)

end Written

/-- The data blocks of a table of sorted entries. -/
theorem written_of_sorted {o : TableOptions} {es : List Entry} (hne : es ≠ []) (hsorted : Entry.Sorted es)
    (hwf : ∀ e ∈ es, e.key.WellFormed) (hinterval : 1 ≤ o.blockRestartInterval)
    (hblocks : ∀ block ∈ (builtTable o internalKeyComparator (es.map tableEntry)).blocks,
      block.length < 2 ^ 32) :
    ∃ groups, groups.flatten = es.map tableEntry ∧ Written o internalKeyComparator groups ∧
      (builtTable o internalKeyComparator (es.map tableEntry)).file =
        (tableParts o internalKeyComparator groups).flatten := by
  obtain ⟨groups, hgne, hflat, hgroups, hfile, hall⟩ :=
    @builtTable_spec _ o internalKeyComparator (es.map tableEntry) (by simpa using hne)
  rw [hall] at hblocks
  refine ⟨groups, hflat, ⟨hinterval, internalKeyComparator_shortens, hgne, hgroups, ?_, ?_, ?_, ?_, ?_, ?_⟩,
    hfile⟩
  · rw [hflat, List.pairwise_map]
    refine hsorted.imp_of_mem fun hx hy hlt => ?_
    rwa [rank_tableEntry (hwf _ hx), rank_tableEntry (hwf _ hy)]
  · intro kv hkv
    rw [hflat] at hkv
    obtain ⟨e, -, rfl⟩ := List.mem_map.mp hkv
    show 8 ≤ e.key.toBytes.length
    simp [InternalKey.toBytes]
  · exact fun g hg => hblocks _ (by simp only [List.mem_append]; exact Or.inl (Or.inl (List.mem_map_of_mem hg)))
  · exact fun f hf => hblocks _ (by
      simp only [List.mem_append]
      exact Or.inl (Or.inr (Option.mem_toList.mpr hf)))
  · exact hblocks _ (by simp)
  · exact hblocks _ (by simp)

/-- **A table read back**: the file is opened; its iterator walks the entries forward and
    backward and a seek ends on the first entry at or after its target, whatever the calls
    before; a lookup is handed the newest version it sees, and if there is none, nothing or
    an entry of another user key. -/
theorem table_round_trip {o : TableOptions} {es : List Entry} (hne : es ≠ []) (hsorted : Entry.Sorted es)
    (hwf : ∀ e ∈ es, e.key.WellFormed) (hinterval : 1 ≤ o.blockRestartInterval)
    (hsound : ∀ P ∈ o.filterPolicy, P.Sound filterKey)
    (hblocks : ∀ block ∈ (builtTable o internalKeyComparator (es.map tableEntry)).blocks,
      block.length < 2 ^ 32) :
    ∃ t, Table.openTable o (builtTable o internalKeyComparator (es.map tableEntry)).file = .ok t ∧
      let C := (t.levels internalKeyComparator).twoLevelCursor
      (∀ moves, C.Legal moves t.newIterator →
        (∀ fuel ≥ es.length, C.drain fuel (C.seekToFirst (C.run moves t.newIterator)) = es.map tableEntry ∧
          C.drainBack fuel (C.seekToLast (C.run moves t.newIterator)) = (es.map tableEntry).reverse) ∧
        ∀ target, C.current (C.seek target (C.run moves t.newIterator)) =
          (es.map tableEntry).find? fun kv => !internalKeyComparator.less kv.1 target) ∧
      ∀ u, ∀ s ≤ kMaxSequenceNumber,
        (∀ e ∈ es, e.userKey = u → e.sequence ≤ s → ∃ e' ∈ es, e'.userKey = u ∧ e'.sequence ≤ s ∧
          (∀ x ∈ es, x.userKey = u → x.sequence ≤ s → x.sequence ≤ e'.sequence) ∧
          t.internalGet internalKeyComparator (lookupKey u s) = .ok (some (tableEntry e'))) ∧
        ((∀ e ∈ es, e.userKey = u → s < e.sequence) →
          t.internalGet internalKeyComparator (lookupKey u s) = .ok none ∨
          ∃ e' ∈ es, e'.userKey ≠ u ∧
            t.internalGet internalKeyComparator (lookupKey u s) = .ok (some (tableEntry e'))) := by
  obtain ⟨groups, hflat, h, hfile⟩ := written_of_sorted hne hsorted hwf hinterval hblocks
  obtain ⟨R, hfollows, hnew⟩ := h.follows
  rw [hflat] at hfollows
  refine ⟨_, hfile ▸ h.openTable_eq, ?_, ?_⟩
  · intro moves hlegal
    have hrun := (hfollows.unless.run hnew hlegal).resolve_right id
    refine ⟨fun fuel hfuel => ?_, fun target => hfollows.seek_current hrun target⟩
    have hlen : (es.map tableEntry).length ≤ fuel := by rwa [List.length_map]
    exact ⟨hfollows.forward hrun hlen, hfollows.backward hrun hlen⟩
  · intro u s hs
    have hfinds := seekEntry_finds hsorted hwf u s
    cases hseek : seekEntry es u s with
    | none =>
      rw [hseek] at hfinds
      refine ⟨fun e he hu hle => absurd (hfinds e he hu) (not_lt.mpr hle), fun _ => ?_⟩
      exact h.internalGet_absent hflat hsorted hwf hs hseek
    | some e' =>
      rw [hseek] at hfinds
      obtain ⟨hmem, hu, hle, hnewest⟩ := hfinds
      refine ⟨fun _ _ _ _ => ⟨e', hmem, hu, hle, fun x hx hxu hxs => ?_, ?_⟩, fun hnone => ?_⟩
      · rcases hnewest x hx hxu hxs with hlt | ⟨-, hle⟩
        · exact absurd (hu.trans hxu.symm) hlt.ne
        · exact Nat.div_le_div_right hle
      · exact h.internalGet_found hflat hsorted hwf hs hsound hseek
      · exact absurd (hnone e' hmem hu) (not_lt.mpr hle)

/-- Two versions of a key and a deletion, in two blocks with a filter. -/
theorem table_round_trip_deletion :
    let o : TableOptions := ⟨20, 1, .lz, some (internalFilterPolicy (bloomFilterPolicy 10 6))⟩
    let es : List Entry := [⟨makeInternalKey [97] 7 .value, [1]⟩, ⟨makeInternalKey [97] 3 .value, [2]⟩,
      ⟨makeInternalKey [98] 5 .deletion, []⟩]
    ∃ t, Table.openTable o (builtTable o internalKeyComparator (es.map tableEntry)).file = .ok t ∧
      t.internalGet internalKeyComparator (lookupKey [97] 6) =
        .ok (some (tableEntry ⟨makeInternalKey [97] 3 .value, [2]⟩)) := by
  intro o es
  obtain ⟨t, hopen, -, hget⟩ := @table_round_trip o es (by decide) (by unfold Entry.Sorted; decide)
    (by decide) (by decide)
    (fun P hP => Option.some.inj hP ▸ internalFilterPolicy_sound (bloomFilterPolicy_sound (by decide)))
    (by decide +kernel)
  refine ⟨t, hopen, ?_⟩
  obtain ⟨e, he, hu, hle, -, hfound⟩ := (hget [97] 6 (by decide)).1 ⟨makeInternalKey [97] 3 .value, [2]⟩
    (by decide) rfl (by decide)
  -- it is the only version of the key that is seen
  have honly : ∀ e ∈ es, e.userKey = [97] → e.sequence ≤ 6 →
      e = ⟨makeInternalKey [97] 3 .value, [2]⟩ := by decide
  rwa [honly e he hu hle] at hfound

end Ambar
