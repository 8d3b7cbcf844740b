import Ambar.Memory.SkipIterator
import Ambar.Read.Get
import Ambar.Table.Comparator

/-!
# The memtable

`src/memtable.cpp` over the skip list of `src/skiplist.hpp`. The keys of the list are records of
an arena, length-prefixed internal key and length-prefixed value, and the comparator reads the
internal key of a record each time. Lengths are written as `uint32_t`, so a record of a longer key
or value does not say what was added.

Results:

* `record_internalKey`, `record_value`: records that fit are read back.
* `addAll_built`: a run of additions builds a list that stands for `Ambar.MemTable`, the sorted
  entries by which the rest of the development knows a memtable.
* `get_eq_memTableGet`: `get` on the records is `memTableGet` on the entries.
* `addAll_reads`: what a run of additions leaves to be read, where everything fits.
-/

namespace Ambar.Memory

/-! ## Records -/

/-- `decode_varint32_exact` (`src/encoding.hpp`, lines 100–111): the loop of `get_varint`, which
    here has no end of the input to check. No value where it would read beyond the record. -/
def decodeVarint32Exact (p : Bytes) : Option (ℕ × Bytes) := getVarint 32 5 0 0 p

/-- `read_length_prefixed` (lines 18–24): the field and what follows it; no value where the field
    reaches beyond the record. -/
def readLengthPrefixed (data : Bytes) : Option (Bytes × Bytes) :=
  (decodeVarint32Exact data).bind fun start =>
    if start.2.length < start.1 then none
    else some (start.2.take start.1, start.2.drop start.1)

theorem readLengthPrefixed_put (field rest : Bytes) :
    readLengthPrefixed (putLengthPrefixed field ++ rest) =
      some ((field ++ rest).take (field.length % 2 ^ 32), (field ++ rest).drop (field.length % 2 ^ 32)) := by
  have hle : field.length % 2 ^ 32 ≤ (field ++ rest).length := by
    rw [List.length_append]
    exact (Nat.mod_le _ _).trans (Nat.le_add_right _ _)
  rw [putLengthPrefixed, List.append_assoc, readLengthPrefixed,
    show decodeVarint32Exact _ = _ from getVarint32_put (Nat.mod_lt _ (by decide)) _,
    Option.bind_some, if_neg (not_lt.mpr hle)]

/-- A record of the arena; its first field lies within it. -/
structure Record where
  bytes : Bytes
  readable : (readLengthPrefixed bytes).isSome = true

namespace Record

/-- The internal key that a record begins with. -/
def internalKey (r : Record) : Bytes := ((readLengthPrefixed r.bytes).get r.readable).1

/-- The second field. -/
def value (r : Record) : Option Bytes :=
  (readLengthPrefixed ((readLengthPrefixed r.bytes).get r.readable).2).map Prod.fst

/-- What an iterator shows of a record: `key()` and `value()` (lines 94–103). -/
def shown (r : Record) : Option (Bytes × Bytes) := r.value.map fun v => (r.internalKey, v)

end Record

/-- A length-prefixed internal key and what follows it. -/
def prefixed (internalKey rest : Bytes) : Record where
  bytes := putLengthPrefixed internalKey ++ rest
  readable := by rw [readLengthPrefixed_put]; rfl

theorem prefixed_internalKey {internalKey : Bytes} (h : internalKey.length < 2 ^ 32) (rest : Bytes) :
    (prefixed internalKey rest).internalKey = internalKey := by
  simp only [Record.internalKey, prefixed, readLengthPrefixed_put, Option.get_some,
    Nat.mod_eq_of_lt h, List.take_left]

theorem prefixed_value {internalKey : Bytes} (h : internalKey.length < 2 ^ 32) (rest : Bytes) :
    (prefixed internalKey rest).value = (readLengthPrefixed rest).map Prod.fst := by
  simp only [Record.value, prefixed, readLengthPrefixed_put, Option.get_some,
    Nat.mod_eq_of_lt h, List.drop_left]

/-- The record that `add` (lines 37–57) makes of an entry. -/
def record (e : Entry) : Record := prefixed e.key.toBytes (putLengthPrefixed e.value)

/-- `LookupKey::memtable_key` (`src/dbformat.cpp`, lines 9–23). -/
def lookupRecord (userKey : Bytes) (snapshot : ℕ) : Record :=
  prefixed (makeLookupKey userKey snapshot).toBytes []

/-- `MemTable::KeyComparator` (lines 28–34). -/
def keyComparator : KeyOrder Record InternalKey where
  compare a b := compareInternalKeys a.internalKey b.internalKey
  rank r := internalRank r.internalKey
  compare_lt _ _ := compareInternalKeys_lt_zero

/-! ## The memtable -/

/-- `class MemTable`: a skip list of records. -/
abbrev MemTable := SkipList Record

/-- The arguments of an `add`, with what the generator of the list draws. -/
structure Add where
  sequence : ℕ
  type : ValueType
  key : Bytes
  value : Bytes
  draws : ℕ → ℕ

def Add.entry (a : Add) : Entry := ⟨makeInternalKey a.key a.sequence a.type, a.value⟩

/-- `MemTable::add` (lines 37–57). -/
def MemTable.add (table : MemTable) (a : Add) : Option MemTable :=
  table.insert keyComparator (record a.entry) a.draws

/-- Additions one after another, from an empty memtable. -/
def addAll (adds : List Add) : Option MemTable := Lib.run MemTable.add SkipList.new adds

/-- `extract_value_type` (`src/dbformat.hpp`, lines 75–78), as a number. -/
def extractValueType (internalKey : Bytes) : ℕ :=
  decodeFixed (internalKey.drop (internalKey.length - 8)) % 256

/-- `MemTable::get` (lines 59–86): no value where the code would read what is not there, then
    `none` for false. -/
def MemTable.get (table : MemTable) (userKey : Bytes) (snapshot : ℕ) :
    Option (Option (Except Status Bytes)) :=
  (table.findGreaterOrEqual keyComparator table.maxHeight (lookupRecord userKey snapshot)).bind fun found =>
    found.1.elim (some none) fun node => (table.key node).bind fun entry =>
      if extractUserKey entry.internalKey ≠ userKey then some none
      else if extractValueType entry.internalKey = ValueType.deletion.toNat then
        some (some (.error (.notFound "deleted")))
      else entry.value.map fun stored => some (.ok stored)

/-- A target of `MemTable::Iterator::seek`: the bytes of an internal key, of a length that is
    written in full. -/
structure Target where
  bytes : Bytes
  long : 8 ≤ bytes.length
  short : bytes.length < 2 ^ 32

/-- `MemTable::Iterator` (lines 88–103); `seek` (lines 88–93) makes a record of its target. -/
def MemTable.iterator (table : MemTable) : Lib.Cursor (Option (Option ℕ)) (Bytes × Bytes) Target :=
  (SkipList.iterator keyComparator table).view Record.shown fun target => prefixed target.bytes []

/-! ## Entries that fit -/

/-- The lengths and the sequence number are written in full. -/
structure Fits (e : Entry) : Prop where
  key : e.key.toBytes.length < 2 ^ 32
  value : e.value.length < 2 ^ 32
  wellFormed : e.key.WellFormed

theorem length_toBytes (k : InternalKey) : k.toBytes.length = k.userKey.length + 8 := by
  simp [InternalKey.toBytes]

variable {e : Entry}

theorem record_internalKey (h : e.key.toBytes.length < 2 ^ 32) :
    (record e).internalKey = e.key.toBytes :=
  prefixed_internalKey h _

/-- The value comes back up to its length as it was written. -/
theorem record_value_take (h : e.key.toBytes.length < 2 ^ 32) :
    (record e).value = some (e.value.take (e.value.length % 2 ^ 32)) := by
  have hread := readLengthPrefixed_put e.value []
  rw [List.append_nil, List.append_nil] at hread
  rw [record, prefixed_value h, hread]
  rfl

theorem record_value (h : Fits e) : (record e).value = some e.value := by
  rw [record_value_take h.key, Nat.mod_eq_of_lt h.value, List.take_length]

theorem record_shown (h : Fits e) : (record e).shown = some (e.key.toBytes, e.value) := by
  rw [Record.shown, record_value h, record_internalKey h.key]
  rfl

theorem rank_record (h : e.key.toBytes.length < 2 ^ 32) (hw : e.key.WellFormed) :
    keyComparator.rank (record e) = e.key := by
  show internalRank (record e).internalKey = e.key
  rw [record_internalKey h, internalRank_toBytes hw.trailer_lt]

theorem Fits.rank (h : Fits e) : keyComparator.rank (record e) = e.key := rank_record h.key h.wellFormed

theorem rank_prefixed {bytes : Bytes} (h : bytes.length < 2 ^ 32) :
    keyComparator.rank (prefixed bytes []) = internalRank bytes := by
  show internalRank (prefixed bytes []).internalKey = _
  rw [prefixed_internalKey h]

theorem rank_lookupRecord {u : Bytes} {s : ℕ} (hu : u.length + 8 < 2 ^ 32) (hs : s ≤ kMaxSequenceNumber) :
    keyComparator.rank (lookupRecord u s) = makeLookupKey u s := by
  have hlen : (makeLookupKey u s).toBytes.length < 2 ^ 32 := by
    rw [length_toBytes]
    exact hu
  rw [lookupRecord, rank_prefixed hlen]
  exact internalRank_toBytes (makeInternalKey_wellFormed u _ hs).trailer_lt

theorem extractValueType_toBytes {k : InternalKey} (h : k.WellFormed) :
    extractValueType k.toBytes = k.typeByte := by
  have hrank := congrArg InternalKey.trailer (internalRank_toBytes h.trailer_lt)
  exact congrArg (· % 256) hrank

theorem extractUserKey_toBytes {k : InternalKey} (h : k.WellFormed) :
    extractUserKey k.toBytes = k.userKey :=
  congrArg InternalKey.userKey (internalRank_toBytes h.trailer_lt)

/-! ## Runs of additions -/

/-- Every argument is of a length and a sequence number that are written in full. -/
def Add.Fits (a : Add) : Prop :=
  a.key.length + 8 < 2 ^ 32 ∧ a.value.length < 2 ^ 32 ∧ a.sequence ≤ kMaxSequenceNumber

instance (a : Add) : Decidable a.Fits := inferInstanceAs (Decidable (_ ∧ _))

theorem Add.Fits.entry {a : Add} (h : a.Fits) : Memory.Fits a.entry where
  key := by
    rw [length_toBytes]
    exact h.1
  value := h.2.1
  wellFormed := makeInternalKey_wellFormed a.key a.type h.2.2

/-- The memtable that the rest of the development speaks of: the entries in order. -/
def entriesOf (adds : List Add) : Ambar.MemTable :=
  Ambar.MemTable.insertAll .empty (adds.map Add.entry)

theorem entriesOf_append (adds : List Add) (a : Add) :
    entriesOf (adds ++ [a]) = (entriesOf adds).insert a.entry := by
  rw [entriesOf, List.map_append, Ambar.MemTable.insertAll, List.foldl_append]
  rfl

theorem mem_of_mem_entriesOf {adds : List Add} (h : e ∈ entriesOf adds) : e ∈ adds.map Add.entry := by
  induction adds using List.reverseRecOn with
  | nil => exact absurd h Lib.OrderedSet.not_mem_empty
  | append_singleton adds a ih =>
    rw [entriesOf_append] at h
    rw [List.map_append]
    rcases Lib.mem_of_mem_insertByKey h with rfl | h
    · simp
    · exact List.mem_append_left _ (ih h)

theorem fits_of_mem_entriesOf {adds : List Add} (hfits : ∀ a ∈ adds, a.Fits) (h : e ∈ entriesOf adds) :
    Fits e := by
  obtain ⟨a, ha, rfl⟩ := List.mem_map.mp (mem_of_mem_entriesOf h)
  exact (hfits a ha).entry

theorem entry_key_injOn {a b : Add} (h : a.entry.key = b.entry.key) : a.sequence = b.sequence := by
  have := congrArg InternalKey.sequence h
  simpa [Add.entry] using this

/-- The records in order are those of the entries in order. -/
theorem sortedKeys_record {adds : List Add} (hfits : ∀ a ∈ adds, a.Fits) :
    SkipList.sortedKeys keyComparator (adds.map fun a => record a.entry) =
      (entriesOf adds).toList.map record := by
  induction adds using List.reverseRecOn with
  | nil => rfl
  | append_singleton adds a ih =>
    have hfits' : ∀ b ∈ adds, b.Fits := fun b hb => hfits b (List.mem_append_left _ hb)
    rw [List.map_append, List.map_singleton, SkipList.sortedKeys_append, ih hfits', entriesOf_append]
    refine Lib.map_insertByKey fun b hb => ?_
    rcases List.mem_cons.mp hb with rfl | hb
    · exact (hfits a (by simp)).entry.rank
    · exact (fits_of_mem_entriesOf hfits' hb).rank

theorem addAll_eq (adds : List Add) :
    addAll adds = SkipList.insertAll keyComparator (adds.map fun a => (record a.entry, a.draws)) := by
  unfold addAll SkipList.insertAll
  generalize SkipList.new = table
  induction adds generalizing table with
  | nil => rfl
  | cons a adds ih =>
    rw [Lib.run_cons, List.map_cons, Lib.run_cons]
    exact congrArg _ (funext ih)

/-- **A run of additions** builds the entries in order. -/
theorem addAll_built {adds : List Add} (hseq : (adds.map Add.sequence).Nodup)
    (hfits : ∀ a ∈ adds, a.Fits) :
    ∃ table nodes height, addAll adds = some table ∧
      SkipList.Built keyComparator table nodes height ((entriesOf adds).toList.map record) := by
  have hranks : ((adds.map fun a => (record a.entry, a.draws)).map
      fun insert => keyComparator.rank insert.1).Nodup := by
    rw [List.map_map]
    refine List.Nodup.map_on (fun a ha b hb hab => ?_) (List.Nodup.of_map _ hseq)
    rw [Function.comp_apply, Function.comp_apply, (hfits a ha).entry.rank,
      (hfits b hb).entry.rank] at hab
    exact List.inj_on_of_nodup_map hseq ha hb (entry_key_injOn hab)
  obtain ⟨table, nodes, height, hrun, hbuilt⟩ := SkipList.insertAll_built keyComparator _ hranks
  rw [List.map_map] at hbuilt
  refine ⟨table, nodes, height, (addAll_eq adds).trans hrun, ?_⟩
  rw [← sortedKeys_record hfits]
  exact hbuilt

/-! ## Reading -/

section Reading

variable {table : MemTable} {nodes : List ℕ} {height : ℕ → ℕ} {mem : Ambar.MemTable}

/-- The search by records finds the entry that a search of the entries finds. -/
theorem find?_record (hfits : ∀ e ∈ mem, Fits e) {u : Bytes} {s : ℕ} (hu : u.length + 8 < 2 ^ 32)
    (hs : s ≤ kMaxSequenceNumber) :
    (mem.toList.map record).find?
        (fun r => decide (keyComparator.rank (lookupRecord u s) ≤ keyComparator.rank r)) =
      (mem.toList.find? fun e => decide (makeLookupKey u s ≤ e.key)).map record := by
  rw [List.find?_map, rank_lookupRecord hu hs]
  congr 1
  refine List.find?_congr fun e he => ?_
  rw [Function.comp_apply, (hfits e he).rank]

/-- `MemTable::get` answers as the sorted entries do. -/
theorem get_eq_memTableGet (h : SkipList.Built keyComparator table nodes height (mem.toList.map record))
    (hfits : ∀ e ∈ mem, Fits e) {u : Bytes} {s : ℕ} (hu : u.length + 8 < 2 ^ 32)
    (hs : s ≤ kMaxSequenceNumber) : table.get u s = some (memTableGet mem u s) := by
  obtain ⟨node, prev, hfind, hkey, hnode⟩ := h.findGreaterOrEqual_node (lookupRecord u s)
  rw [find?_record hfits hu hs] at hkey
  rw [MemTable.get, hfind, Option.bind_some, memTableGet, seekEntry]
  cases hfound : mem.toList.find? fun e => decide (makeLookupKey u s ≤ e.key) with
  | none =>
    rw [hfound] at hkey
    cases node with
    | none => rfl
    | some n =>
      obtain ⟨k, hk⟩ := hnode n rfl
      rw [Option.bind_some, hk] at hkey
      cases hkey
  | some e =>
    rw [hfound] at hkey
    obtain ⟨n, rfl, hn⟩ := Option.bind_eq_some_iff.mp hkey
    have he := hfits e (List.mem_of_find?_eq_some hfound)
    show (table.key n).bind _ = _
    rw [hn, Option.bind_some, record_internalKey he.key, extractUserKey_toBytes he.wellFormed,
      extractValueType_toBytes he.wellFormed, record_value he, Option.filter_some]
    by_cases hkeyEq : e.key.userKey = u
    · rw [if_neg (not_not.mpr hkeyEq), if_pos (decide_eq_true hkeyEq), Option.map_some, Option.map_some]
      split_ifs <;> rfl
    · rw [if_pos hkeyEq, if_neg (by simpa using hkeyEq), Option.map_none]

/-- The iterator shows the entries in order. -/
theorem iterator_follows (h : SkipList.Built keyComparator table nodes height (mem.toList.map record))
    (hfits : ∀ e ∈ mem, Fits e) :
    Lib.Follows table.iterator
      (fun target kv => decide (compareInternalKeys kv.1 target.bytes < 0))
      (mem.toList.map fun e => (e.key.toBytes, e.value)) (SkipList.StandsAt nodes) := by
  refine h.follows.view ?_ fun target => ?_
  · rw [List.map_map, List.map_map]
    exact List.map_congr_left fun e he => record_shown (hfits e he)
  · rw [List.map_map, List.map_map]
    refine List.map_congr_left fun e he => decide_eq_decide.mpr ?_
    rw [(hfits e he).rank, rank_prefixed target.short, compareInternalKeys_lt_zero,
      internalRank_toBytes (hfits e he).wellFormed.trailer_lt]

/-- The sorted entries are those added. -/
theorem mem_entriesOf {adds : List Add} (hseq : (adds.map Add.sequence).Nodup) :
    ∀ e, e ∈ entriesOf adds ↔ e ∈ adds.map Add.entry := by
  intro e
  have hkeys : ((adds.map Add.entry).map Entry.key).Nodup := by
    rw [List.map_map]
    refine List.Nodup.map_on (fun a ha b hb hab => ?_) (List.Nodup.of_map _ hseq)
    exact List.inj_on_of_nodup_map hseq ha hb (entry_key_injOn hab)
  rw [entriesOf, MemTable.mem_insertAll (fun a _ b hb => absurd hb Lib.OrderedSet.not_mem_empty) hkeys]
  exact or_iff_right Lib.OrderedSet.not_mem_empty

theorem entriesOf_perm {adds : List Add} (hseq : (adds.map Add.sequence).Nodup) :
    (entriesOf adds).toList.Perm (adds.map Add.entry) := by
  refine (List.perm_ext_iff_of_nodup ?_ ?_).mpr (mem_entriesOf hseq)
  · apply (entriesOf adds).sorted.imp
    intro a b hlt heq
    exact absurd hlt (heq ▸ lt_irrefl _)
  · refine List.Nodup.map_on (fun a ha b hb hab => ?_) (List.Nodup.of_map _ hseq)
    exact List.inj_on_of_nodup_map hseq ha hb (entry_key_injOn (congrArg Entry.key hab))

theorem answer_entry (a : Add) : (if a.entry.key.typeByte = ValueType.deletion.toNat then
      Except.error (Status.notFound "deleted") else .ok a.entry.value) =
    if a.type = .deletion then .error (.notFound "deleted") else .ok a.value := by
  have htype : a.entry.key.typeByte = a.type.toNat := by
    show (a.sequence * 256 + a.type.toNat) % 256 = a.type.toNat
    have := a.type.toNat_le
    omega
  rw [htype]
  cases a.type <;> rfl

/-- What a lookup returns, by the additions. -/
theorem memTableGet_entriesOf {adds : List Add} (hseq : (adds.map Add.sequence).Nodup)
    (hfits : ∀ a ∈ adds, a.Fits) (u : Bytes) (s : ℕ) :
    (memTableGet (entriesOf adds) u s = none ↔ ∀ a ∈ adds, a.key = u → s < a.sequence) ∧
    ∀ a ∈ adds, a.key = u → a.sequence ≤ s →
      (∀ b ∈ adds, b.key = u → b.sequence ≤ s → b.sequence ≤ a.sequence) →
      memTableGet (entriesOf adds) u s =
        some (if a.type = .deletion then .error (.notFound "deleted") else .ok a.value) := by
  have hfinds := seekEntry_finds (entriesOf adds).sorted
    (fun e he => (fits_of_mem_entriesOf hfits he).wellFormed) u s
  have hmem := mem_entriesOf hseq
  rw [memTableGet]
  cases hseek : seekEntry (entriesOf adds).toList u s with
  | none =>
    rw [hseek] at hfinds
    have hnone : ∀ a ∈ adds, a.key = u → s < a.sequence := by
      intro a ha hau
      have := hfinds a.entry ((hmem a.entry).mpr (List.mem_map_of_mem ha)) hau
      simpa [Entry.versioning, Add.entry] using this
    refine ⟨iff_of_true rfl hnone, fun a ha hau hle => ?_⟩
    exact absurd (hnone a ha hau) (not_lt.mpr hle)
  | some e =>
    rw [hseek] at hfinds
    obtain ⟨he, heu, hes, hnewest⟩ := hfinds
    obtain ⟨a, ha, rfl⟩ := List.mem_map.mp ((hmem e).mp he)
    have hseqa : a.entry.key.sequence = a.sequence := by simp [Add.entry]
    refine ⟨iff_of_false (by simp) fun hall => ?_, fun b hb hbu hbs hmax => ?_⟩
    · exact absurd (hall a ha heu) (not_lt.mpr (hseqa ▸ hes))
    · -- both are the newest visible addition of the key
      have hle : b.sequence ≤ a.sequence := by
        have hkeys : a.entry.key ≤ b.entry.key := hnewest b.entry
          ((hmem b.entry).mpr (List.mem_map_of_mem hb)) hbu (by simpa [Entry.versioning, Add.entry] using hbs)
        rcases InternalKey.le_iff.mp hkeys with hlt | ⟨-, htrailer⟩
        · exact absurd (hlt.trans_eq (hbu.trans heu.symm)) (lt_irrefl _)
        · have htrailer : b.sequence * 256 + b.type.toNat ≤ a.sequence * 256 + a.type.toNat := htrailer
          have := a.type.toNat_le
          omega
      have hge := hmax a ha heu (hseqa ▸ hes)
      obtain rfl := List.inj_on_of_nodup_map hseq ha hb (le_antisymm hge hle)
      rw [Option.map_some, answer_entry]

end Reading

/-- **Where everything fits**, additions with distinct sequence numbers leave a list whose lowest
    chain holds the entries in order and whose other chains are parts of the one below. The
    iterator moves as over the sorted entries, and a lookup returns true exactly where an entry of
    the key is visible, with the answer of the newest. -/
theorem addAll_reads (adds : List Add) (hseq : (adds.map Add.sequence).Nodup)
    (hfits : ∀ a ∈ adds, a.Fits) :
    ∃ (table : MemTable) (entries : List Entry) (chains : ℕ → List ℕ), addAll adds = some table ∧
      Entry.Sorted entries ∧ entries.Perm (adds.map Add.entry) ∧
      (chains 0).map (fun n => (table.key n).bind Record.shown) =
        entries.map (fun e => some (e.key.toBytes, e.value)) ∧
      (∀ level < SkipList.kMaxHeight, Lib.Chain table.slots level 0 (chains level) ∧
        (chains (level + 1)).Sublist (chains level)) ∧
      (∀ moves, table.iterator.Legal moves (some none) →
        table.iterator.current (table.iterator.run moves (some none)) =
          let sorted := Lib.posCursor
            (fun (target : Target) kv => decide (compareInternalKeys kv.1 target.bytes < 0))
            (entries.map fun e => (e.key.toBytes, e.value))
          sorted.current (sorted.run moves none)) ∧
      ∀ u s, u.length + 8 < 2 ^ 32 → s ≤ kMaxSequenceNumber →
        (table.get u s = some none ↔ ∀ a ∈ adds, a.key = u → s < a.sequence) ∧
        ∀ a ∈ adds, a.key = u → a.sequence ≤ s →
          (∀ b ∈ adds, b.key = u → b.sequence ≤ s → b.sequence ≤ a.sequence) →
          table.get u s =
            some (some (if a.type = .deletion then .error (.notFound "deleted") else .ok a.value)) := by
  obtain ⟨table, nodes, height, hrun, hbuilt⟩ := addAll_built hseq hfits
  have hfits' : ∀ e ∈ entriesOf adds, Fits e := fun e he => fits_of_mem_entriesOf hfits he
  refine ⟨table, (entriesOf adds).toList, fun level => SkipList.above height level nodes, hrun,
    (entriesOf adds).sorted, entriesOf_perm hseq, ?_, fun level hlevel => ⟨hbuilt.chain level hlevel,
    SkipList.above_succ_sublist height level nodes⟩, fun moves hlegal => ?_, fun u s hu hs => ?_⟩
  · have hshown := congrArg (List.map fun k => Option.bind k Record.shown) hbuilt.keys
    rw [List.map_map, List.map_map, List.map_map] at hshown
    show (SkipList.above height 0 nodes).map _ = _
    rw [SkipList.above_zero hbuilt.tall]
    refine hshown.trans (List.map_congr_left fun e he => ?_)
    exact record_shown (hfits' e he)
  · exact (iterator_follows hbuilt hfits').run_current ⟨rfl, fun i hi => by cases hi⟩ hlegal
  · rw [get_eq_memTableGet hbuilt hfits' hu hs]
    obtain ⟨hnone, hsome⟩ := memTableGet_entriesOf hseq hfits u s
    refine ⟨?_, fun a ha hau hle hmax => congrArg some (hsome a ha hau hle hmax)⟩
    rw [← hnone]
    exact ⟨fun h => Option.some.inj h, congrArg some⟩

/-- Two versions of a key, the older one deleted and added last, and another key. -/
theorem addAll_reads_three :
    let adds : List Add := [⟨7, .value, [98], [1, 2], fun _ => 0⟩, ⟨5, .value, [97], [3], fun _ => 1⟩,
      ⟨6, .deletion, [98], [], fun i => i / 2⟩]
    ∃ table, addAll adds = some table ∧
      table.get [98] 7 = some (some (.ok [1, 2])) ∧
      table.get [98] 6 = some (some (.error (.notFound "deleted"))) ∧
      table.get [97] 4 = some none := by
  intro adds
  obtain ⟨table, entries, chains, hrun, -, -, -, -, -, hget⟩ :=
    addAll_reads adds (by decide) (by decide)
  have h7 := (hget [98] 7 (by decide) (by decide)).2 adds[0] (by simp) rfl (by decide) (by decide)
  have h6 := (hget [98] 6 (by decide) (by decide)).2 adds[2] (by simp) rfl (by decide) (by decide)
  have h4 := (hget [97] 4 (by decide) (by decide)).1.mpr (by decide)
  exact ⟨table, hrun, h7, h6, h4⟩

/-- A value whose length leaves nothing below `2 ^ 32` is found empty. -/
theorem get_of_cut_value {v : Bytes} (hv : v.length % 2 ^ 32 = 0) :
    ((addAll [⟨1, .value, [97], v, fun _ => 1⟩]).bind fun table => table.get [97] 1) =
      some (some (.ok [])) := by
  set a : Add := ⟨1, .value, [97], v, fun _ => 1⟩ with ha
  have hkey : a.entry.key.toBytes.length < 2 ^ 32 := by
    rw [length_toBytes]
    exact (by decide : 1 + 8 < 2 ^ 32)
  have hw : a.entry.key.WellFormed :=
    makeInternalKey_wellFormed [97] .value (by decide : 1 ≤ kMaxSequenceNumber)
  obtain ⟨table, nodes, height, hrun, hbuilt⟩ := SkipList.insertAll_built keyComparator
    ([a].map fun a => (record a.entry, a.draws)) (List.nodup_singleton _)
  obtain ⟨node, prev, hfind, hnode, -⟩ := hbuilt.findGreaterOrEqual_node (lookupRecord [97] 1)
  have hfirst : node.bind table.key = some (record a.entry) := by
    rw [hnode]
    refine List.find?_cons_of_pos (decide_eq_true ?_)
    rw [rank_lookupRecord (by decide) (by decide), rank_record hkey hw]
    exact le_refl (makeInternalKey [97] 1 .value)
  obtain ⟨n, rfl, hn⟩ := Option.bind_eq_some_iff.mp hfirst
  rw [addAll_eq, hrun, Option.bind_some, MemTable.get, hfind, Option.bind_some]
  show (table.key n).bind _ = _
  rw [hn, Option.bind_some, record_internalKey hkey, extractUserKey_toBytes hw,
    extractValueType_toBytes hw, record_value_take hkey,
    show a.entry.value.length % 2 ^ 32 = 0 from hv]
  have huser : a.entry.key.userKey = [97] := rfl
  have htype : a.entry.key.typeByte ≠ ValueType.deletion.toNat :=
    (by decide : (1 * 256 + 1) % 256 ≠ 0)
  rw [if_neg (not_not.mpr huser), if_neg htype]
  rfl

/-- A value of 4 GiB is added, and the lookup answers with an empty one. -/
theorem long_value_lost : ∃ v : Bytes, v.length = 2 ^ 32 ∧
    ((addAll [⟨1, .value, [97], v, fun _ => 1⟩]).bind fun table => table.get [97] 1) =
      some (some (.ok [])) := by
  refine ⟨List.replicate (2 ^ 32) 0, List.length_replicate, get_of_cut_value ?_⟩
  rw [List.length_replicate, Nat.mod_self]

end Ambar.Memory
