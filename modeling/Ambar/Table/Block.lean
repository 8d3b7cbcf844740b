import Ambar.Lib.Follows
import Ambar.Table.BlockBuilder
import Ambar.Table.Comparator

/-!
# Reading blocks

`Block`, its iterator and `Block::find` (`src/block.cpp`). An entry's key is known from
the entries before it back to a restart point, so the iterator keeps the key it stands
on; it goes back by walking forward from a restart point. The value is kept as where it
stands in the block.

* `Block.Image`: a block that holds entries.
* `BlockBuilder.Holds.image`: a finished builder's block does.
* `Block.Image.follows`: the iterator follows the entries.
* `Block.Image.find`: `Block::find` returns the first entry at or after its target.
-/

namespace Ambar

open Lib (offsetAt Cursor Follows posOf lastPos)

/-- `class Block`; `address` is where its bytes are stored. -/
structure Block where
  data : Bytes
  size : ℕ
  restartOffset : ℕ
  numRestarts : ℕ
  address : ℕ

/-- `Block::Iter`; `valueStart` and `valueLength` are `value_`, from the start of the block. -/
structure BlockIter where
  current : ℕ
  restartIndex : ℕ
  key : Bytes
  valueStart : ℕ
  valueLength : ℕ
  status : Status

/-- `next_entry_offset` (lines 196–198). -/
def BlockIter.nextEntryOffset (s : BlockIter) : ℕ := s.valueStart + s.valueLength

namespace Block

/-- `Block::Block` (lines 13–37) on contents stored at an address. -/
def newAt (address : ℕ) (contents : Bytes) : Block :=
  let size := contents.length
  if size < 4 then ⟨contents, 0, 0, 0, address⟩
  else
    let maxRestarts := (size - 4) / 4 % 2 ^ 32
    let numRestarts := decodeFixed ((contents.drop (size - 4)).take 4)
    if maxRestarts < numRestarts then ⟨contents, 0, 0, numRestarts, address⟩
    else ⟨contents, size, (size - (1 + numRestarts) * 4) % 2 ^ 32, numRestarts, address⟩

/-- A block whose address is left open. It matters only where an iterator goes on from a
    `value_` that is null. -/
def new (contents : Bytes) : Block := newAt 0 contents

/-- `next_entry_offset` where `value_` is null: the difference of the pointers is cut to 32
    bits. -/
def nullOffset (b : Block) : ℕ := (2 ^ 32 - b.address % 2 ^ 32) % 2 ^ 32

/-- `get_restart_point` (lines 200–202). -/
def restartPoint (b : Block) (index : ℕ) : ℕ :=
  decodeFixed ((b.data.drop (b.restartOffset + index * 4)).take 4)

/-- The bytes from an offset to the end of the entries. -/
def region (b : Block) (offset : ℕ) : Bytes := (b.data.take b.restartOffset).drop offset

/-- A new `Iter` (lines 90–97). -/
def iter (b : Block) : BlockIter := ⟨b.restartOffset, b.numRestarts, [], b.nullOffset, 0, .ok⟩

/-- `corrupted` (lines 218–224). -/
def corrupted (b : Block) (what : String) : BlockIter :=
  ⟨b.restartOffset, b.numRestarts, [], b.nullOffset, 0,
    .corruption ("bad block entry: " ++ what)⟩

/-- `seek_to_restart_point` (lines 204–216). -/
def seekToRestartPoint (b : Block) (index : ℕ) (s : BlockIter) : BlockIter :=
  let offset := b.restartPoint index
  if b.restartOffset < offset then
    b.corrupted "restart point lies outside the entry region"
  else { s with key := [], restartIndex := index, valueStart := offset, valueLength := 0 }

/-- `restart_index_` kept in step (lines 270–273); at most `turns` turns. -/
def advanceRestart (b : Block) (next : ℕ) : (turns index : ℕ) → ℕ
  | 0, index => index
  | turns + 1, index =>
    if index + 1 < b.numRestarts ∧ b.restartPoint (index + 1) < next then
      advanceRestart b next turns (index + 1)
    else index

variable {κ : Type} [LinearOrder κ]

/-- `parse_next_entry` (lines 226–275). -/
def parseNextEntry (c : Comparator κ) (b : Block) (s : BlockIter) : Bool × BlockIter :=
  let current := s.nextEntryOffset
  if b.restartOffset ≤ current then
    (false, { s with current := b.restartOffset, restartIndex := b.numRestarts })
  else
    match decodeEntry (b.region current) with
    | none => (false, b.corrupted "entry runs past the end of the block")
    | some (h, p) =>
      if s.key.length < h.shared then
        (false, b.corrupted "shared prefix longer than the previous key")
      else
        let key := s.key.take h.shared ++ p.take h.nonShared
        if key.length < c.minKeyLength then
          (false, b.corrupted "key is too short for this comparator")
        else
          let valueStart := b.restartOffset - p.length + h.nonShared
          (true, { s with
            current := current
            key := key
            valueStart := valueStart
            valueLength := h.valueLength
            restartIndex := b.advanceRestart (valueStart + h.valueLength) b.numRestarts s.restartIndex })

/-- The walk of `prev` and `seek_to_last` (lines 125–127, 190–192): entries are parsed
    until the next one would start at `limit` or later; at most `turns` turns. -/
def walkTo (c : Comparator κ) (b : Block) (limit : ℕ) : (turns : ℕ) → BlockIter → BlockIter
  | 0, s => s
  | turns + 1, s =>
    match b.parseNextEntry c s with
    | (false, s) => s
    | (true, s) => if s.nextEntryOffset < limit then walkTo c b limit turns s else s

/-- The way back to the restart point before an offset (lines 115–122); `none` where it
    runs off the front. At most `turns` turns. -/
def restartBefore (b : Block) (original : ℕ) : (turns index : ℕ) → Option ℕ
  | 0, _ => none
  | turns + 1, index =>
    if original ≤ b.restartPoint index then
      if index = 0 then none else restartBefore b original turns (index - 1)
    else some index

/-- `prev` (lines 112–128). -/
def prev (c : Comparator κ) (b : Block) (s : BlockIter) : BlockIter :=
  match b.restartBefore s.current (s.restartIndex + 1) s.restartIndex with
  | none => { s with current := b.restartOffset, restartIndex := b.numRestarts }
  | some index => b.walkTo c s.current b.data.length (b.seekToRestartPoint index s)

/-- The binary search over the restart points (lines 137–170, 324–347): the last one
    whose key is below the target, or what is wrong with the block. At most `turns`
    turns. -/
def searchRestarts (c : Comparator κ) (b : Block) (tooShort : String) (target : Bytes) :
    (turns left right : ℕ) → Except String ℕ
  | 0, left, _ => .ok left
  | turns + 1, left, right =>
    if left < right then
      let mid := (left + right + 1) / 2
      let regionOffset := b.restartPoint mid
      if b.restartOffset ≤ regionOffset then
        .error "restart point lies outside the entry region"
      else
        match decodeEntry (b.region regionOffset) with
        | none => .error "restart point does not begin a key"
        | some (h, p) =>
          if h.shared ≠ 0 then .error "restart point does not begin a key"
          else if h.nonShared < c.minKeyLength then .error tooShort
          else if c.less (p.take h.nonShared) target then
            searchRestarts c b tooShort target turns mid right
          else searchRestarts c b tooShort target turns left (mid - 1)
    else .ok left

/-- The walk of `seek` (lines 173–176); at most `turns` turns. -/
def seekWalk (c : Comparator κ) (b : Block) (target : Bytes) : (turns : ℕ) → BlockIter → BlockIter
  | 0, s => s
  | turns + 1, s =>
    match b.parseNextEntry c s with
    | (false, s) => s
    | (true, s) => if ¬ c.less s.key target then s else seekWalk c b target turns s

/-- `seek` (lines 130–177). -/
def seek (c : Comparator κ) (b : Block) (target : Bytes) (s : BlockIter) : BlockIter :=
  match b.searchRestarts c "key is too short for this comparator" target b.numRestarts 0
      (b.numRestarts - 1) with
  | .error what => b.corrupted what
  | .ok left => b.seekWalk c target (b.data.length + 1) (b.seekToRestartPoint left s)

/-- `seek_to_first` (lines 179–182). -/
def seekToFirst (c : Comparator κ) (b : Block) (s : BlockIter) : BlockIter :=
  (b.parseNextEntry c (b.seekToRestartPoint 0 s)).2

/-- `seek_to_last` (lines 184–193). -/
def seekToLast (c : Comparator κ) (b : Block) (s : BlockIter) : BlockIter :=
  if b.numRestarts = 0 then { s with current := b.restartOffset }
  else b.walkTo c b.restartOffset b.data.length (b.seekToRestartPoint (b.numRestarts - 1) s)

/-- The entry the iterator stands on, where it is valid (line 99). -/
def current (b : Block) (s : BlockIter) : Option KeyValue :=
  if s.current < b.restartOffset then
    some (s.key, (b.data.drop s.valueStart).take s.valueLength)
  else none

/-- The iterator of a block. -/
def blockCursor (c : Comparator κ) (b : Block) : Cursor BlockIter KeyValue Bytes where
  current := b.current
  seekToFirst := b.seekToFirst c
  seekToLast := b.seekToLast c
  seek := b.seek c
  next s := (b.parseNextEntry c s).2
  prev := b.prev c

/-- The walk of `find` (lines 355–375) from an offset on; at most `turns` turns. -/
def findWalk (c : Comparator κ) (b : Block) (target : Bytes) :
    (turns : ℕ) → (key : Bytes) → (offset : ℕ) → Except Status (Option KeyValue)
  | 0, _, _ => .ok none
  | turns + 1, key, offset =>
    if b.restartOffset ≤ offset then .ok none
    else
      match decodeEntry (b.region offset) with
      | none => .error (.corruption "bad block entry: entry runs past the end of the block")
      | some (h, p) =>
        if key.length < h.shared then
          .error (.corruption "bad block entry: shared prefix longer than the previous key")
        else
          let key := key.take h.shared ++ p.take h.nonShared
          if key.length < c.minKeyLength then
            .error (.corruption "bad block entry: key is too short for this comparator")
          else if ¬ c.less key target then
            .ok (some (key, (p.drop h.nonShared).take h.valueLength))
          else findWalk c b target turns key
            (b.restartOffset - p.length + h.nonShared + h.valueLength)

/-- `Block::find` (lines 299–377). -/
def find (c : Comparator κ) (b : Block) (target : Bytes) : Except Status (Option KeyValue) :=
  if b.size < 4 then .error (.corruption "block is too small")
  else if b.numRestarts = 0 then .ok none
  else
    match b.searchRestarts c "restart key is too short for this comparator" target b.numRestarts 0
        (b.numRestarts - 1) with
    | .error what => .error (.corruption ("bad block entry: " ++ what))
    | .ok left =>
      let start := b.restartPoint left
      if b.restartOffset < start then
        .error (.corruption "bad block entry: restart point lies outside the entry region")
      else b.findWalk c target (b.data.length + 1) [] start

end Block

/-! ## Blocks that hold entries -/

/-- The block holds the entries, and the comparator can read their keys. -/
structure Block.Image {κ : Type} (c : Comparator κ) (b : Block) (kvs : List KeyValue)
    (chunks : List Bytes) (shared : ℕ → ℕ) (starts : List ℕ) : Prop where
  layout : Layout kvs chunks shared starts
  nonempty : kvs ≠ []
  size : 4 ≤ b.size
  restartOffset : b.restartOffset = chunks.flatten.length
  entries : b.data.take b.restartOffset = chunks.flatten
  numRestarts : b.numRestarts = starts.length
  restartPoint : ∀ j i, starts[j]? = some i → b.restartPoint j = offsetAt chunks i
  lengths : ∀ kv ∈ kvs, c.minKeyLength ≤ kv.1.length ∧ kv.1.length < 2 ^ 32 ∧ kv.2.length < 2 ^ 32

/-- Keys and values are no longer than the bytes they are laid out in. -/
theorem Layout.length_le {kvs : List KeyValue} {chunks : List Bytes} {shared : ℕ → ℕ}
    {starts : List ℕ} (h : Layout kvs chunks shared starts) :
    ∀ {i : ℕ} {kv : KeyValue}, kvs[i]? = some kv →
      kv.1.length ≤ offsetAt chunks (i + 1) ∧ kv.2.length ≤ offsetAt chunks (i + 1) := by
  intro i
  induction i with
  | zero =>
    intro kv hkv
    obtain ⟨hc, kv', hkv', hchunk, hle⟩ := h.exists_entry (List.getElem?_eq_some_iff.mp hkv).1
    obtain rfl : kv' = kv := Option.some.inj (hkv'.symm.trans hkv)
    have hzero : shared 0 = 0 := h.starts_shared 0 (List.mem_of_mem_head? h.starts_head)
    have hentry := length_entryBytes_ge (shared 0) kv'.1 kv'.2
    rw [Lib.offsetAt_succ hc, hchunk]
    omega
  | succ i ih =>
    intro kv hkv
    have hlt := (List.getElem?_eq_some_iff.mp hkv).1
    obtain ⟨hc, kv', hkv', hchunk, hle⟩ := h.exists_entry hlt
    obtain rfl : kv' = kv := Option.some.inj (hkv'.symm.trans hkv)
    obtain ⟨last, hlast⟩ : ∃ last, kvs[i]? = some last := ⟨_, List.getElem?_eq_getElem (by omega)⟩
    have hentry := length_entryBytes_ge (shared (i + 1)) kv'.1 kv'.2
    have hshared := (h.shared_eq i last kv' hlast hkv).1
    have hprev := (ih hlast).1
    rw [Lib.offsetAt_succ hc, hchunk]
    omega

/-- **A finished block holds the builder's entries**, wherever it is stored. -/
theorem BlockBuilder.Holds.image {κ : Type} {c : Comparator κ} {b : BlockBuilder} {kvs : List KeyValue}
    {chunks : List Bytes} {shared : ℕ → ℕ} {starts : List ℕ} (h : b.Holds kvs chunks shared starts)
    (hne : kvs ≠ []) (hmin : ∀ kv ∈ kvs, c.minKeyLength ≤ kv.1.length)
    (hsize : b.finish.length < 2 ^ 32) (address : ℕ) :
    (Block.newAt address b.finish).Image c kvs chunks shared starts := by
  generalize hwords : b.restarts ++ [b.restarts.length % 2 ^ 32] = words
  have hwlen : words.length = starts.length + 1 := by
    rw [← hwords, h.restarts, List.length_append, List.length_map, List.length_singleton]
  have hfinish : b.finish = chunks.flatten ++ words.flatMap (putFixed 4) := by
    rw [BlockBuilder.finish, h.buffer, ← hwords, List.flatMap_append, List.flatMap_singleton,
      List.append_assoc]
  have htotal : b.finish.length = chunks.flatten.length + (starts.length + 1) * 4 := by
    rw [hfinish, List.length_append, length_array, hwlen]
  have hflat : ∀ i, offsetAt chunks i < 2 ^ 32 := fun i => by
    have := Lib.offsetAt_le_length chunks i
    omega
  have hword : ∀ (j : ℕ) (hj : j < words.length),
      decodeFixed ((b.finish.drop (chunks.flatten.length + j * 4)).take 4) = words[j] := by
    intro j hj
    have := @decodeFixed_array words (fun w hw => by
      rw [← hwords] at hw
      rcases List.mem_append.mp hw with hw | hw
      · rw [h.restarts] at hw
        obtain ⟨i, -, rfl⟩ := List.mem_map.mp hw
        exact Nat.mod_lt _ (by norm_num)
      · rw [List.mem_singleton.mp hw]
        exact Nat.mod_lt _ (by norm_num)) [] j hj
    rw [List.append_nil] at this
    rw [← List.drop_drop, hfinish, List.drop_left, this]
  have hcount : decodeFixed ((b.finish.drop (b.finish.length - 4)).take 4) = starts.length := by
    have := hword starts.length (by omega)
    rw [show b.finish.length - 4 = chunks.flatten.length + starts.length * 4 by omega, this]
    simp only [← hwords, h.restarts, List.getElem_append, List.length_map, lt_irrefl, dite_false,
      Nat.sub_self, List.getElem_singleton]
    exact Nat.mod_eq_of_lt (by omega)
  have hblock : Block.newAt address b.finish =
      ⟨b.finish, b.finish.length, chunks.flatten.length, starts.length, address⟩ := by
    unfold Block.newAt
    simp only [hcount]
    rw [if_neg (by omega), if_neg (by omega)]
    congr 1
    omega
  rw [hblock]
  refine ⟨h.layout, hne, by show 4 ≤ b.finish.length; omega, rfl, ?_, rfl, fun j i hi => ?_, fun kv hkv => ?_⟩
  · show b.finish.take chunks.flatten.length = _
    rw [hfinish, List.take_left]
  · obtain ⟨hj, rfl⟩ := List.getElem?_eq_some_iff.mp hi
    show decodeFixed ((b.finish.drop (chunks.flatten.length + j * 4)).take 4) = _
    rw [hword j (by omega)]
    simp only [← hwords, h.restarts, List.getElem_append, List.length_map, hj, dite_true, List.getElem_map]
    exact Nat.mod_eq_of_lt (hflat _)
  · obtain ⟨i, hi⟩ := List.mem_iff_getElem?.mp hkv
    obtain ⟨h1, h2⟩ := h.layout.length_le hi
    have := hflat (i + 1)
    exact ⟨hmin kv hkv, by omega, by omega⟩

namespace Block

variable {κ : Type} {c : Comparator κ} {b : Block} {kvs : List KeyValue} {chunks : List Bytes}
  {shared : ℕ → ℕ} {starts : List ℕ} {i : ℕ} {kv : KeyValue} {s : BlockIter}

/-- The iterator stands on entry `i`. -/
structure At (b : Block) (kvs : List KeyValue) (chunks : List Bytes) (starts : List ℕ) (i : ℕ)
    (s : BlockIter) : Prop where
  current : s.current = offsetAt chunks i
  entry : kvs[i]? = some (s.key, (b.data.drop s.valueStart).take s.valueLength)
  next : s.nextEntryOffset = offsetAt chunks (i + 1)
  restart : ∃ m, starts[s.restartIndex]? = some m ∧ m ≤ i
  status : s.status = .ok

/-- The next entry the iterator parses is entry `i`, and it knows what it needs of the
    key before. -/
structure Before (kvs : List KeyValue) (chunks : List Bytes) (shared : ℕ → ℕ) (starts : List ℕ)
    (i : ℕ) (s : BlockIter) : Prop where
  next : s.nextEntryOffset = offsetAt chunks i
  key : shared i = 0 ∨ ∃ j last, i = j + 1 ∧ kvs[j]? = some last ∧ s.key = last.1
  restart : ∃ m, starts[s.restartIndex]? = some m ∧ m ≤ i
  status : s.status = .ok

/-- The iterator is not valid, and nothing is wrong. -/
structure Ended (b : Block) (s : BlockIter) : Prop where
  current : s.current = b.restartOffset
  status : s.status = .ok

theorem At.before (h : At b kvs chunks starts i s) : Before kvs chunks shared starts (i + 1) s := by
  obtain ⟨m, hm, hle⟩ := h.restart
  exact ⟨h.next, Or.inr ⟨i, _, rfl, h.entry, rfl⟩, ⟨m, hm, by omega⟩, h.status⟩

theorem At.lt (h : At b kvs chunks starts i s) : i < kvs.length :=
  (List.getElem?_eq_some_iff.mp h.entry).1

/-! ### One entry -/

/-- What `decode_entry` finds where entry `i` starts. -/
theorem Image.decodeEntry (h : b.Image c kvs chunks shared starts) (hi : kvs[i]? = some kv) :
    ∃ p, decodeEntry (b.region (offsetAt chunks i)) =
        some (⟨shared i, kv.1.length - shared i, kv.2.length⟩, p) ∧
      p.take (kv.1.length - shared i) = kv.1.drop (shared i) ∧
      (p.drop (kv.1.length - shared i)).take kv.2.length = kv.2 ∧
      b.restartOffset - p.length + (kv.1.length - shared i) + kv.2.length = offsetAt chunks (i + 1) ∧
      (b.data.drop (b.restartOffset - p.length + (kv.1.length - shared i))).take kv.2.length = kv.2 := by
  have hlt : i < kvs.length := (List.getElem?_eq_some_iff.mp hi).1
  obtain ⟨hc, kv', hkv', hchunk, hle⟩ := h.layout.exists_entry hlt
  obtain rfl : kv' = kv := Option.some.inj (hkv'.symm.trans hi)
  obtain ⟨-, hkey, hvalue⟩ := h.lengths kv' (List.mem_of_getElem? hi)
  have hdelta : (kv'.1.drop (shared i)).length = kv'.1.length - shared i := List.length_drop
  have hregion : b.region (offsetAt chunks i) = entryBytes (shared i) kv'.1 kv'.2 ++
      (chunks.drop (i + 1)).flatten := by
    rw [region, h.entries, Lib.drop_offsetAt_cons hc, hchunk]
  have hsucc := Lib.offsetAt_succ hc
  rw [hchunk] at hsucc
  have hend : offsetAt chunks (i + 1) + (chunks.drop (i + 1)).flatten.length = b.restartOffset := by
    have := congrArg List.length (Lib.drop_offsetAt chunks (i + 1))
    have hle' := Lib.offsetAt_le_length chunks (i + 1)
    rw [List.length_drop] at this
    rw [h.restartOffset]
    omega
  have hentry := length_entryBytes_ge (shared i) kv'.1 kv'.2
  refine ⟨_, by rw [hregion, decodeEntry_entryBytes hkey hle hvalue], ?_, ?_, ?_, ?_⟩
  · rw [List.append_assoc, List.take_left' hdelta]
  · rw [List.append_assoc, List.drop_left' hdelta, List.take_left]
  · simp only [List.length_append, hdelta]
    omega
  · -- the same bytes in the whole block
    have hpos : b.restartOffset - (kv'.1.drop (shared i) ++ kv'.2 ++ (chunks.drop (i + 1)).flatten).length +
        (kv'.1.length - shared i) + kv'.2.length = offsetAt chunks (i + 1) := by
      simp only [List.length_append, hdelta]
      omega
    have hdata : b.data = chunks.flatten ++ b.data.drop b.restartOffset := by
      rw [← h.entries, List.take_append_drop]
    have hflat : chunks.flatten.drop (offsetAt chunks i) = (entryBytes (shared i) kv'.1 kv'.2) ++
        (chunks.drop (i + 1)).flatten := by rw [Lib.drop_offsetAt_cons hc, hchunk]
    have hsplit : entryBytes (shared i) kv'.1 kv'.2 =
        (entryBytes (shared i) kv'.1 kv'.2).take
          ((entryBytes (shared i) kv'.1 kv'.2).length - kv'.2.length) ++ kv'.2 := by
      conv_lhs => rw [entryBytes]
      rw [entryBytes, List.length_append, Nat.add_sub_cancel, List.take_left]
    generalize b.restartOffset - (kv'.1.drop (shared i) ++ kv'.2 ++ (chunks.drop (i + 1)).flatten).length +
      (kv'.1.length - shared i) = at_ at hpos ⊢
    obtain ⟨k, rfl⟩ : ∃ k, at_ = offsetAt chunks i + k := ⟨at_ - offsetAt chunks i, by omega⟩
    rw [← List.drop_drop, hdata, List.drop_append_of_le_length (Lib.offsetAt_le_length chunks i), hflat,
      hsplit, List.append_assoc, List.append_assoc, List.drop_left' (by
        rw [List.length_take]
        omega), List.take_left]

theorem Image.advanceRestart (h : b.Image c kvs chunks shared starts) (hi : i < kvs.length) :
    ∀ {turns index m : ℕ}, starts[index]? = some m → m ≤ i →
      ∃ m', starts[b.advanceRestart (offsetAt chunks (i + 1)) turns index]? = some m' ∧ m' ≤ i := by
  intro turns
  induction turns with
  | zero => exact fun hm hle => ⟨_, hm, hle⟩
  | succ turns ih =>
    intro index m hm hle
    rw [Block.advanceRestart]
    split_ifs with hmore
    · obtain ⟨m', hm'⟩ : ∃ m', starts[index + 1]? = some m' :=
        ⟨_, List.getElem?_eq_getElem (by rw [← h.numRestarts]; exact hmore.1)⟩
      have hlt := hmore.2
      rw [h.restartPoint _ m' hm', h.layout.offset_lt_iff hi] at hlt
      exact ih hm' (by omega)
    · exact ⟨m, hm, hle⟩

/-- **The next entry is parsed.** -/
theorem Image.parse (h : b.Image c kvs chunks shared starts)
    (hs : Before kvs chunks shared starts i s) (hi : i < kvs.length) :
    ∃ s', b.parseNextEntry c s = (true, s') ∧ At b kvs chunks starts i s' := by
  obtain ⟨kv, hkv⟩ : ∃ kv, kvs[i]? = some kv := ⟨_, List.getElem?_eq_getElem hi⟩
  obtain ⟨p, hdecode, hdelta, -, hend, hvalue⟩ := h.decodeEntry hkv
  obtain ⟨hmin, -, -⟩ := h.lengths kv (List.mem_of_getElem? hkv)
  have hle : shared i ≤ kv.1.length := (h.layout.chunk i kv hkv).2
  have hcurrent : ¬ b.restartOffset ≤ s.nextEntryOffset := by
    rw [hs.next, h.restartOffset, not_le, ← Lib.offsetAt_length, h.layout.length]
    exact (h.layout.offset_lt_iff le_rfl).mpr hi
  -- the bytes shared are those of the key before
  have hshared : shared i ≤ s.key.length ∧ s.key.take (shared i) = kv.1.take (shared i) := by
    rcases hs.key with hzero | ⟨j, last, rfl, hlast, hkey⟩
    · rw [hzero]
      exact ⟨Nat.zero_le _, rfl⟩
    · rw [hkey]
      exact h.layout.shared_eq j last kv hlast hkv
  have hkey : s.key.take (shared i) ++ p.take (kv.1.length - shared i) = kv.1 := by
    rw [hshared.2, hdelta, List.take_append_drop]
  obtain ⟨m, hm, hmi⟩ := hs.restart
  obtain ⟨m', hm', hmi'⟩ := @Image.advanceRestart _ c b kvs chunks shared starts i h hi b.numRestarts _ m hm hmi
  unfold parseNextEntry
  simp only
  rw [if_neg hcurrent, hs.next, hdecode]
  simp only
  rw [if_neg (by omega), hkey, if_neg (by omega)]
  refine ⟨_, rfl, rfl, ?_, hend, ⟨m', ?_, hmi'⟩, hs.status⟩
  · rw [hkv]
    simp only [hvalue]
  · simp only
    rw [hend]
    exact hm'

theorem Image.parse_end (h : b.Image c kvs chunks shared starts)
    (hs : Before kvs chunks shared starts kvs.length s) :
    ∃ s', b.parseNextEntry c s = (false, s') ∧ Ended b s' := by
  unfold parseNextEntry
  simp only
  rw [if_pos (by rw [hs.next, ← h.layout.length, Lib.offsetAt_length, h.restartOffset])]
  exact ⟨_, rfl, rfl, hs.status⟩

/-! ### Walks -/

theorem Image.seekToRestartPoint (h : b.Image c kvs chunks shared starts) {index m : ℕ}
    (hm : starts[index]? = some m) (hs : s.status = .ok) :
    Before kvs chunks shared starts m (b.seekToRestartPoint index s) := by
  have hlt := h.layout.start_lt h.nonempty (List.mem_of_getElem? hm)
  unfold Block.seekToRestartPoint
  simp only
  rw [h.restartPoint index m hm, if_neg (by
    rw [h.restartOffset, not_lt]
    exact Lib.offsetAt_le_length chunks m)]
  exact ⟨rfl, Or.inl (h.layout.starts_shared m (List.mem_of_getElem? hm)), ⟨m, hm, le_rfl⟩, hs⟩

/-- Every entry takes three bytes. -/
theorem Image.entries_le (h : b.Image c kvs chunks shared starts) : 3 * kvs.length ≤ b.data.length := by
  have hoffset : ∀ i, i ≤ kvs.length → 3 * i ≤ offsetAt chunks i := by
    intro i
    induction i with
    | zero => exact fun _ => Nat.zero_le _
    | succ i ih =>
      intro hi
      obtain ⟨hc, kv, -, hchunk, -⟩ := h.layout.exists_entry (by omega : i < kvs.length)
      have hentry := length_entryBytes_ge (shared i) kv.1 kv.2
      have := ih (by omega)
      rw [Lib.offsetAt_succ hc, hchunk]
      omega
  have hall := hoffset kvs.length le_rfl
  rw [← h.layout.length, Lib.offsetAt_length, ← h.entries, List.length_take] at hall
  rw [← h.layout.length]
  omega

/-- **A walk to an entry**: the next one would start at the limit. -/
theorem Image.walkTo (h : b.Image c kvs chunks shared starts) {j : ℕ} (hj : j < kvs.length) :
    ∀ {turns i : ℕ} {s : BlockIter}, Before kvs chunks shared starts i s → i ≤ j → j < turns + i →
      At b kvs chunks starts j (b.walkTo c (offsetAt chunks (j + 1)) turns s) := by
  intro turns
  induction turns with
  | zero => intro i s _ hle hlt; omega
  | succ turns ih =>
    intro i s hs hle hlt
    obtain ⟨s', hparse, hat⟩ := h.parse hs (by omega)
    rw [Block.walkTo, hparse]
    simp only
    rw [hat.next, if_congr (h.layout.offset_lt_iff hj) rfl rfl]
    split_ifs with hmore
    · exact ih hat.before (by omega) (by omega)
    · obtain rfl : i = j := by omega
      exact hat

/-- The restart point before an entry that is not the first; at the first there is
    none. -/
theorem Image.restartBefore (h : b.Image c kvs chunks shared starts) (hi : i < kvs.length) :
    ∀ {turns index m : ℕ}, starts[index]? = some m → m ≤ i → index < turns →
      if i = 0 then b.restartBefore (offsetAt chunks i) turns index = none
      else ∃ index' m', b.restartBefore (offsetAt chunks i) turns index = some index' ∧
        starts[index']? = some m' ∧ m' < i := by
  intro turns
  induction turns with
  | zero => intro index m _ _ hlt; omega
  | succ turns ih =>
    intro index m hm hle hlt
    have hhead : starts[0]? = some 0 := by
      rw [← List.head?_eq_getElem?]
      exact h.layout.starts_head
    rw [Block.restartBefore, h.restartPoint index m hm]
    have hiff : offsetAt chunks i ≤ offsetAt chunks m ↔ i ≤ m := by
      rw [← not_lt, h.layout.offset_lt_iff hi.le, not_lt]
    rw [if_congr hiff rfl rfl]
    by_cases him : i ≤ m
    · rw [if_pos him]
      by_cases hzero : index = 0
      · rw [hzero, hhead] at hm
        rw [if_pos hzero, if_pos (by have := Option.some.inj hm; omega)]
      · rw [if_neg hzero]
        obtain ⟨m', hm'⟩ : ∃ m', starts[index - 1]? = some m' :=
          ⟨_, List.getElem?_eq_getElem (by have := (List.getElem?_eq_some_iff.mp hm).1; omega)⟩
        have hlt' : m' < m := by
          obtain ⟨h1, rfl⟩ := List.getElem?_eq_some_iff.mp hm
          obtain ⟨h2, rfl⟩ := List.getElem?_eq_some_iff.mp hm'
          exact List.pairwise_iff_getElem.mp h.layout.starts_sorted _ _ h2 h1 (by omega)
        exact ih hm' (by omega) (by omega)
    · rw [if_neg him, if_neg (by omega)]
      exact ⟨index, m, rfl, hm, by omega⟩

theorem Image.prev (h : b.Image c kvs chunks shared starts) (hs : At b kvs chunks starts (i + 1) s) :
    At b kvs chunks starts i (b.prev c s) := by
  obtain ⟨m, hm, hle⟩ := hs.restart
  have hback := h.restartBefore hs.lt hm hle (Nat.lt_succ_self _)
  rw [if_neg (Nat.succ_ne_zero i)] at hback
  obtain ⟨index, m', heq, hm', hlt⟩ := hback
  have hlen := h.entries_le
  have hi := hs.lt
  rw [Block.prev, hs.current, heq]
  exact h.walkTo (by omega) (h.seekToRestartPoint hm' hs.status) (by omega) (by omega)

theorem Image.prev_zero (h : b.Image c kvs chunks shared starts) (hs : At b kvs chunks starts 0 s) :
    Ended b (b.prev c s) := by
  obtain ⟨m, hm, hle⟩ := hs.restart
  have hback := h.restartBefore hs.lt hm hle (Nat.lt_succ_self _)
  rw [if_pos rfl] at hback
  rw [Block.prev, hs.current, hback]
  exact ⟨rfl, hs.status⟩

theorem Image.seekToLast (h : b.Image c kvs chunks shared starts) (hs : s.status = .ok) :
    At b kvs chunks starts (kvs.length - 1) (b.seekToLast c s) := by
  have hpos := List.length_pos_iff.mpr h.nonempty
  have hne : starts ≠ [] := by
    intro hnil
    have := h.layout.starts_head
    rw [hnil] at this
    cases this
  have hstarts := List.length_pos_iff.mpr hne
  obtain ⟨m, hm⟩ : ∃ m, starts[starts.length - 1]? = some m := ⟨_, List.getElem?_eq_getElem (by omega)⟩
  have hmlt := h.layout.start_lt h.nonempty (List.mem_of_getElem? hm)
  have hlimit : b.restartOffset = offsetAt chunks (kvs.length - 1 + 1) := by
    rw [Nat.sub_add_cancel hpos, ← h.layout.length, Lib.offsetAt_length, h.restartOffset]
  have hlen := h.entries_le
  rw [Block.seekToLast, h.numRestarts, if_neg (by omega), hlimit]
  exact h.walkTo (by omega) (h.seekToRestartPoint hm hs) (by omega) (by omega)

theorem Image.seekToFirst (h : b.Image c kvs chunks shared starts) (hs : s.status = .ok) :
    At b kvs chunks starts 0 (b.seekToFirst c s) := by
  have hhead : starts[0]? = some 0 := by
    rw [← List.head?_eq_getElem?]
    exact h.layout.starts_head
  obtain ⟨s', hparse, hat⟩ := h.parse (h.seekToRestartPoint hhead hs) (List.length_pos_iff.mpr h.nonempty)
  rw [Block.seekToFirst, hparse]
  exact hat

end Block

/-! ## Searches -/

namespace Block

variable {κ : Type} [LinearOrder κ] {c : Comparator κ} {b : Block} {kvs : List KeyValue}
  {chunks : List Bytes} {shared : ℕ → ℕ} {starts : List ℕ} {i : ℕ} {s : BlockIter} {target : Bytes}

/-- The entries before entry `i` are below the target. -/
def BelowBefore (c : Comparator κ) (kvs : List KeyValue) (target : Bytes) (i : ℕ) : Prop :=
  ∀ j < i, ∀ kv, kvs[j]? = some kv → c.less kv.1 target = true

/-- The binary search ends on a restart point with nothing at or after the target before
    it. -/
theorem Image.searchRestarts (h : b.Image c kvs chunks shared starts)
    (hsorted : kvs.Pairwise fun x y => c.rank x.1 < c.rank y.1) (tooShort : String) :
    ∀ {turns left right : ℕ}, left ≤ right → right < starts.length →
      (∀ m, starts[left]? = some m → BelowBefore c kvs target m) →
      ∃ l m, b.searchRestarts c tooShort target turns left right = .ok l ∧ starts[l]? = some m ∧
        BelowBefore c kvs target m := by
  have hdone : ∀ left < starts.length, (∀ m, starts[left]? = some m → BelowBefore c kvs target m) →
      ∃ m, starts[left]? = some m ∧ BelowBefore c kvs target m := by
    intro left hlt hleft
    obtain ⟨m, hm⟩ : ∃ m, starts[left]? = some m := ⟨_, List.getElem?_eq_getElem hlt⟩
    exact ⟨m, hm, hleft m hm⟩
  intro turns
  induction turns with
  | zero =>
    intro left right hle hlt hleft
    obtain ⟨m, hm, hbelow⟩ := hdone left (by omega) hleft
    exact ⟨left, m, rfl, hm, hbelow⟩
  | succ turns ih =>
    intro left right hle hlt hleft
    rw [Block.searchRestarts]
    split_ifs with hmore
    · obtain ⟨m, hm⟩ : ∃ m, starts[(left + right + 1) / 2]? = some m :=
        ⟨_, List.getElem?_eq_getElem (by omega)⟩
      have hmlt := h.layout.start_lt h.nonempty (List.mem_of_getElem? hm)
      obtain ⟨kv, hkv⟩ : ∃ kv, kvs[m]? = some kv := ⟨_, List.getElem?_eq_getElem hmlt⟩
      obtain ⟨p, hdecode, hdelta, -⟩ := h.decodeEntry hkv
      obtain ⟨hmin, -⟩ := h.lengths kv (List.mem_of_getElem? hkv)
      have hzero := h.layout.starts_shared m (List.mem_of_getElem? hm)
      have hin : ¬ b.restartOffset ≤ offsetAt chunks m := by
        rw [h.restartOffset, not_le, ← Lib.offsetAt_length, h.layout.length]
        exact (h.layout.offset_lt_iff le_rfl).mpr hmlt
      rw [hzero] at hdecode hdelta
      simp only
      rw [h.restartPoint _ m hm, if_neg hin, hdecode]
      simp only
      rw [Nat.sub_zero] at hdelta ⊢
      rw [if_neg (not_not.mpr rfl), if_neg (by omega), hdelta, List.drop_zero]
      split_ifs with hless
      · refine ih (by omega) hlt fun m' hm' j hj kv' hkv' => ?_
        -- everything before the middle restart point is below its key
        obtain rfl : m = m' := Option.some.inj (hm.symm.trans hm')
        obtain ⟨h1, rfl⟩ := List.getElem?_eq_some_iff.mp hkv'
        obtain ⟨h2, rfl⟩ := List.getElem?_eq_some_iff.mp hkv
        have hlt' := List.pairwise_iff_getElem.mp hsorted _ _ h1 h2 hj
        rw [Comparator.less, decide_eq_true_eq] at hless ⊢
        exact hlt'.trans hless
      · exact ih (by omega) (by omega) hleft
    · obtain ⟨m, hm, hbelow⟩ := hdone left (by omega) hleft
      exact ⟨left, m, rfl, hm, hbelow⟩

/-- The search as `seek` and `find` start it. -/
theorem Image.searchRestarts_all (h : b.Image c kvs chunks shared starts)
    (hsorted : kvs.Pairwise fun x y => c.rank x.1 < c.rank y.1) (tooShort : String) :
    ∃ l m, b.searchRestarts c tooShort target b.numRestarts 0 (b.numRestarts - 1) = .ok l ∧
      starts[l]? = some m ∧ BelowBefore c kvs target m := by
  have hhead := h.layout.starts_head
  have hpos : 0 < starts.length := List.length_pos_iff.mpr fun hnil => by rw [hnil] at hhead; cases hhead
  rw [h.numRestarts]
  refine h.searchRestarts hsorted tooShort (Nat.zero_le _) (by omega) fun m hm j hj => ?_
  rw [List.head?_eq_getElem?, hm] at hhead
  have := Option.some.inj hhead
  omega

/-- The first entry at or after the target, where those before `i` are below it. -/
theorem findIdx_of_below (hbelow : BelowBefore c kvs target i) {kv : KeyValue}
    (hi : kvs[i]? = some kv) (hkv : c.less kv.1 target = false) :
    (kvs.findIdx fun kv => !c.less kv.1 target) = i := by
  obtain ⟨hlt, rfl⟩ := List.getElem?_eq_some_iff.mp hi
  rw [List.findIdx_eq hlt]
  refine ⟨by rw [hkv]; rfl, fun j hj => ?_⟩
  rw [hbelow j hj _ (List.getElem?_eq_getElem (by omega))]
  rfl

theorem findIdx_of_all_below (hbelow : BelowBefore c kvs target kvs.length) :
    kvs.length ≤ kvs.findIdx fun kv => !c.less kv.1 target := by
  by_contra hlt
  rw [not_le] at hlt
  have h1 := @List.findIdx_getElem _ (fun kv => !c.less kv.1 target) kvs hlt
  rw [hbelow _ hlt _ (List.getElem?_eq_getElem hlt)] at h1
  exact Bool.false_ne_true h1

/-- Positions of the iterator. -/
def Position (b : Block) (kvs : List KeyValue) (chunks : List Bytes) (starts : List ℕ)
    (s : BlockIter) : Option ℕ → Prop
  | none => Ended b s
  | some i => At b kvs chunks starts i s

theorem Position.status {p : Option ℕ} (h : Position b kvs chunks starts s p) : s.status = .ok := by
  cases p with
  | none => exact Ended.status h
  | some i => exact At.status h

theorem BelowBefore.succ (hbelow : BelowBefore c kvs target i) {kv : KeyValue}
    (hi : kvs[i]? = some kv) (hkv : c.less kv.1 target = true) : BelowBefore c kvs target (i + 1) := by
  intro j hj kv' hkv'
  rcases Nat.lt_succ_iff_lt_or_eq.mp hj with hj | rfl
  · exact hbelow j hj kv' hkv'
  · rw [Option.some.inj (hkv'.symm.trans hi)]
    exact hkv

/-- **The walk of a seek** ends on the first entry at or after the target. -/
theorem Image.seekWalk (h : b.Image c kvs chunks shared starts) :
    ∀ {turns i : ℕ} {s : BlockIter}, Before kvs chunks shared starts i s → i ≤ kvs.length →
      kvs.length < turns + i → BelowBefore c kvs target i →
      Position b kvs chunks starts (b.seekWalk c target turns s)
        (posOf kvs (kvs.findIdx fun kv => !c.less kv.1 target)) := by
  intro turns
  induction turns with
  | zero => intro i s _ hle hlt; omega
  | succ turns ih =>
    intro i s hs hle hlt hbelow
    rw [Block.seekWalk]
    by_cases hi : i < kvs.length
    · obtain ⟨s', hparse, hat⟩ := h.parse hs hi
      rw [hparse]
      simp only
      cases hless : c.less s'.key target with
      | false =>
        rw [if_pos (by simp), findIdx_of_below hbelow hat.entry hless, Lib.posOf_of_lt hi]
        exact hat
      | true =>
        rw [if_neg (by simp)]
        exact ih hat.before (by omega) (by omega) (hbelow.succ hat.entry hless)
    · obtain rfl : i = kvs.length := by omega
      obtain ⟨s', hparse, hend⟩ := h.parse_end hs
      rw [hparse, Lib.posOf_of_le (findIdx_of_all_below hbelow)]
      exact hend

/-- **The iterator of a block follows its entries.** -/
theorem Image.follows (h : b.Image c kvs chunks shared starts)
    (hsorted : kvs.Pairwise fun x y => c.rank x.1 < c.rank y.1) :
    Follows (b.blockCursor c) (fun target kv => c.less kv.1 target) kvs
      (Position b kvs chunks starts) where
  current := by
    intro s p hs
    cases p with
    | none =>
      show b.current s = none
      rw [Block.current, Ended.current hs, if_neg (lt_irrefl _)]
    | some i =>
      have hat : At b kvs chunks starts i s := hs
      show b.current s = kvs[i]?
      rw [Block.current, if_pos (by
        rw [hat.current, h.restartOffset, ← Lib.offsetAt_length, h.layout.length]
        exact (h.layout.offset_lt_iff le_rfl).mpr hat.lt), hat.entry]
  bound := fun hs => At.lt hs
  seekToFirst := fun hs => by
    rw [Lib.posOf_of_lt (List.length_pos_iff.mpr h.nonempty)]
    exact h.seekToFirst hs.status
  seekToLast := fun hs => by
    rw [lastPos, if_neg h.nonempty]
    exact h.seekToLast hs.status
  seek := fun target hs => by
    obtain ⟨l, m, hsearch, hm, hbelow⟩ := h.searchRestarts_all hsorted "key is too short for this comparator"
    have hlen := h.entries_le
    have hmlt := h.layout.start_lt h.nonempty (List.mem_of_getElem? hm)
    show Position b kvs chunks starts (b.seek c target _) _
    rw [Block.seek, hsearch]
    exact h.seekWalk (h.seekToRestartPoint hm hs.status) hmlt.le (by omega) hbelow
  next := by
    intro s i hs
    have hat : At b kvs chunks starts i s := hs
    show Position b kvs chunks starts (b.parseNextEntry c s).2 _
    by_cases hi : i + 1 < kvs.length
    · obtain ⟨s', hparse, hat'⟩ := h.parse hat.before hi
      rw [hparse, Lib.posOf_of_lt hi]
      exact hat'
    · have hlast : i + 1 = kvs.length := by
        have := hat.lt
        omega
      obtain ⟨s', hparse, hend⟩ := h.parse_end (hlast ▸ hat.before)
      rw [hparse, Lib.posOf_of_le (by omega)]
      exact hend
  prev := fun hs => h.prev hs
  prev_zero := fun hs => h.prev_zero hs

/-- The walk of `find` returns the first entry at or after the target. -/
theorem Image.findWalk (h : b.Image c kvs chunks shared starts) :
    ∀ {turns i offset : ℕ} {key : Bytes}, offset = offsetAt chunks i → i ≤ kvs.length →
      kvs.length < turns + i →
      (shared i = 0 ∨ ∃ j last, i = j + 1 ∧ kvs[j]? = some last ∧ key = last.1) →
      BelowBefore c kvs target i →
      b.findWalk c target turns key offset = .ok (kvs.find? fun kv => !c.less kv.1 target) := by
  intro turns
  induction turns with
  | zero => intro i offset key _ hle hlt; omega
  | succ turns ih =>
    intro i offset key hoff hle hlt hkey hbelow
    rw [Block.findWalk]
    by_cases hi : i < kvs.length
    · obtain ⟨kv, hkv⟩ : ∃ kv, kvs[i]? = some kv := ⟨_, List.getElem?_eq_getElem hi⟩
      obtain ⟨p, hdecode, hdelta, hvalue, hend, -⟩ := h.decodeEntry hkv
      obtain ⟨hmin, -, -⟩ := h.lengths kv (List.mem_of_getElem? hkv)
      have hin : ¬ b.restartOffset ≤ offset := by
        rw [hoff, h.restartOffset, not_le, ← Lib.offsetAt_length, h.layout.length]
        exact (h.layout.offset_lt_iff le_rfl).mpr hi
      have hshared : shared i ≤ key.length ∧ key.take (shared i) = kv.1.take (shared i) := by
        rcases hkey with hzero | ⟨j, last, rfl, hlast, rfl⟩
        · rw [hzero]
          exact ⟨Nat.zero_le _, rfl⟩
        · exact h.layout.shared_eq j last kv hlast hkv
      have hkey' : key.take (shared i) ++ p.take (kv.1.length - shared i) = kv.1 := by
        rw [hshared.2, hdelta, List.take_append_drop]
      rw [if_neg hin, hoff, hdecode]
      simp only
      rw [if_neg (by omega), hkey', if_neg (by omega), hvalue]
      cases hless : c.less kv.1 target with
      | false =>
        rw [if_pos (by simp)]
        obtain ⟨hlt', hget⟩ := List.getElem?_eq_some_iff.mp hkv
        refine congrArg Except.ok (Eq.symm ?_)
        rw [List.find?_eq_some_iff_getElem]
        refine ⟨by rw [hless]; rfl, i, hlt', hget, fun j hj => ?_⟩
        rw [hbelow j hj _ (List.getElem?_eq_getElem (by omega))]
        rfl
      | true =>
        rw [if_neg (by simp)]
        exact ih hend (by omega) (by omega) (Or.inr ⟨i, kv, rfl, hkv, rfl⟩) (hbelow.succ hkv hless)
    · obtain rfl : i = kvs.length := by omega
      rw [if_pos (by rw [hoff, ← h.layout.length, Lib.offsetAt_length, h.restartOffset])]
      refine congrArg Except.ok (Eq.symm (List.find?_eq_none.mpr fun kv hkv => ?_))
      obtain ⟨j, hj, rfl⟩ := List.mem_iff_getElem.mp hkv
      rw [hbelow j hj _ (List.getElem?_eq_getElem hj)]
      simp

/-- **`Block::find`** returns the first entry at or after its target. -/
theorem Image.find (h : b.Image c kvs chunks shared starts)
    (hsorted : kvs.Pairwise fun x y => c.rank x.1 < c.rank y.1) :
    b.find c target = .ok (kvs.find? fun kv => !c.less kv.1 target) := by
  obtain ⟨l, m, hsearch, hm, hbelow⟩ :=
    h.searchRestarts_all hsorted "restart key is too short for this comparator"
  have hsize := h.size
  have hhead := h.layout.starts_head
  have hpos : 0 < starts.length := List.length_pos_iff.mpr fun hnil => by rw [hnil] at hhead; cases hhead
  have hlen := h.entries_le
  have hmlt := h.layout.start_lt h.nonempty (List.mem_of_getElem? hm)
  rw [Block.find, if_neg (by omega), if_neg (by rw [h.numRestarts]; omega), hsearch]
  simp only
  rw [h.restartPoint l m hm, if_neg (by
    rw [h.restartOffset, not_lt]
    exact Lib.offsetAt_le_length chunks m)]
  exact h.findWalk rfl hmlt.le (by omega)
    (Or.inl (h.layout.starts_shared m (List.mem_of_getElem? hm))) hbelow

end Block

end Ambar
