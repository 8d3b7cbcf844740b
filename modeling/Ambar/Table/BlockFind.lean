import Ambar.Format.Readers
import Ambar.Table.Reader

/-!
# `Block::find` and the iterator's `seek`

Two searches of one block (`src/block.cpp`, lines 130–177 and 299–377) on bytes nobody wrote.
Where the restart point that is chosen lies outside the entries, `find` returns at once; the
iterator notes the corruption and walks on from a `value_` that is null, whose offset depends
on the address of the block.

Results:
* `Block.seekWalk_findWalk`: from one place the two walks come to the same.
* `Block.find_seek_agree_iff`: on every block and target the two searches agree, unless the
  iterator walks on from the null value and comes to an entry; and both end, reading nothing
  outside the block.
* `Block.seek_goes_on`: a block of one entry and a restart point that lies outside it.
-/

namespace Ambar

/-! ## Entries nobody wrote -/

theorem decodeLengths_suffix {p q : Bytes} {h : EntryHeader} (hlen : 3 ≤ p.length)
    (hd : decodeLengths p = some (h, q)) : q <:+ p ∧ q.length + 3 ≤ p.length := by
  rw [decodeLengths] at hd
  dsimp only at hd
  split_ifs at hd
  · cases hd
    refine ⟨List.drop_suffix 3 p, ?_⟩
    rw [List.length_drop]
    omega
  · obtain ⟨⟨n₁, p₁⟩, h₁, hd⟩ := Option.bind_eq_some_iff.mp hd
    obtain ⟨⟨n₂, p₂⟩, h₂, hd⟩ := Option.bind_eq_some_iff.mp hd
    obtain ⟨⟨n₃, p₃⟩, h₃, hd⟩ := Option.bind_eq_some_iff.mp hd
    obtain ⟨hsuffix₁, hlt₁⟩ := getVarint_suffix h₁
    obtain ⟨hsuffix₂, hlt₂⟩ := getVarint_suffix h₂
    obtain ⟨hsuffix₃, hlt₃⟩ := getVarint_suffix h₃
    cases hd
    refine ⟨hsuffix₃.trans (hsuffix₂.trans hsuffix₁), ?_⟩
    dsimp only at hlt₂ hlt₃ ⊢
    omega

/-- The key delta stands at an end of the input, after at least three bytes, and the lengths
    of the entry fit in it. -/
theorem decodeEntry_spec {p q : Bytes} {h : EntryHeader} (hd : decodeEntry p = some (h, q)) :
    q <:+ p ∧ q.length + 3 ≤ p.length ∧ h.nonShared + h.valueLength ≤ q.length := by
  rw [decodeEntry] at hd
  split_ifs at hd with hlen
  obtain ⟨⟨h', q'⟩, hlengths, hd⟩ := Option.bind_eq_some_iff.mp hd
  dsimp only at hd
  split_ifs at hd with hfit
  cases hd
  obtain ⟨hsuffix, hle⟩ := decodeLengths_suffix (not_lt.mp hlen) hlengths
  exact ⟨hsuffix, hle, not_lt.mp hfit⟩

namespace Block

variable {κ : Type} [LinearOrder κ] {c : Comparator κ} {b : Block} {target : Bytes}

/-- Where the parts of a block lie: entries, then restart points, then their number. -/
structure Sound (b : Block) : Prop where
  size : b.restartOffset + (1 + b.numRestarts) * 4 = b.data.length

theorem newAt_sound {address : ℕ} {contents : Bytes} (hlen : contents.length < 2 ^ 32)
    (h : 4 ≤ (newAt address contents).size) : (newAt address contents).Sound := by
  constructor
  unfold newAt at h ⊢
  dsimp only at h ⊢
  split_ifs at h ⊢ with h1 h2
  · exact absurd h (by simp)
  · exact absurd h (by simp)
  · dsimp only
    rw [Nat.mod_eq_of_lt (by omega)]
    omega

/-- An entry found in the region of entries, and where its parts are in the block. -/
theorem Sound.decodeEntry (hb : b.Sound) {offset : ℕ} (hoff : ¬ b.restartOffset ≤ offset)
    {h : EntryHeader} {p : Bytes} (hd : Ambar.decodeEntry (b.region offset) = some (h, p)) :
    offset + 3 ≤ b.restartOffset - p.length ∧ p.length ≤ b.restartOffset ∧
      h.nonShared + h.valueLength ≤ p.length ∧
      (p.drop h.nonShared).take h.valueLength =
        (b.data.drop (b.restartOffset - p.length + h.nonShared)).take h.valueLength := by
  obtain ⟨hsuffix, hlen, hfit⟩ := decodeEntry_spec hd
  have hsize := hb.size
  have hregion : (b.region offset).length = b.restartOffset - offset := by
    rw [region, List.length_drop, List.length_take]
    omega
  have hp : p = (b.data.take b.restartOffset).drop (b.restartOffset - p.length) := by
    have hsuffix' : p <:+ b.data.take b.restartOffset :=
      hsuffix.trans (List.drop_suffix _ _)
    have heq := List.suffix_iff_eq_drop.mp hsuffix'
    rw [List.length_take, Nat.min_eq_left (by omega)] at heq
    exact heq
  refine ⟨by omega, by omega, hfit, ?_⟩
  conv_lhs => rw [hp]
  rw [List.drop_drop, List.drop_take, List.take_take, Nat.min_eq_left (by omega)]

omit [LinearOrder κ] in
/-- An entry that is parsed lies further on, with a key long enough. -/
theorem parseNextEntry_moves (hb : b.Sound) {s s' : BlockIter}
    (h : b.parseNextEntry c s = (true, s')) :
    s.nextEntryOffset < s'.nextEntryOffset ∧ ¬ s'.key.length < c.minKeyLength := by
  rw [parseNextEntry] at h
  dsimp only at h
  split_ifs at h with hend
  · exact nomatch h
  split at h
  · exact nomatch h
  · rename_i header p hd
    obtain ⟨hmove, -⟩ := hb.decodeEntry hend hd
    split_ifs at h with hshared hshort
    · exact nomatch h
    · exact nomatch h
    · cases h
      refine ⟨?_, hshort⟩
      show _ < b.restartOffset - p.length + header.nonShared + header.valueLength
      omega

/-! ## The two walks -/

/-- What the iterator shows where `find` answers `result`; `status` is the iterator's before the
    walk. -/
def Shows (b : Block) (s : BlockIter) (status : Status) :
    Except Status (Option KeyValue) → Prop
  | .ok (some kv) => b.current s = some kv ∧ s.status = status
  | .ok none => b.current s = none ∧ s.status = status
  | .error failure => b.current s = none ∧ s.status = failure ∧ ∃ message, failure = .corruption message

/-- A walk that began with nothing wrong shows what `find` answers. -/
theorem Shows.agree {s : BlockIter} {result : Except Status (Option KeyValue)}
    (h : b.Shows s .ok result) :
    (∀ kv, result = .ok (some kv) ↔ b.current s = some kv) ∧
      ((∃ message, result = .error (.corruption message)) ↔ ∃ message, s.status = .corruption message) := by
  match result, h with
  | .ok (some kv'), h =>
    rw [h.1, h.2]
    exact ⟨fun kv => by rw [Except.ok.injEq], iff_of_false nofun nofun⟩
  | .ok none, h =>
    rw [h.1, h.2]
    exact ⟨fun kv => iff_of_false nofun nofun, iff_of_false nofun nofun⟩
  | .error failure, ⟨hcurrent, hstatus, message, hfailure⟩ =>
    rw [hcurrent, hstatus, hfailure]
    exact ⟨fun kv => iff_of_false nofun nofun, iff_of_true ⟨_, rfl⟩ ⟨_, rfl⟩⟩

/-- A walk that began after a corruption keeps it. -/
theorem Shows.of_corruption {s : BlockIter} {what : String}
    {result : Except Status (Option KeyValue)} (h : b.Shows s (.corruption what) result) :
    (∃ message, s.status = .corruption message) ∧
      ∀ kv, b.current s = some kv ↔ result = .ok (some kv) := by
  match result, h with
  | .ok (some kv'), h =>
    rw [h.1, h.2]
    exact ⟨⟨_, rfl⟩, fun kv => by rw [Except.ok.injEq]⟩
  | .ok none, h =>
    rw [h.1, h.2]
    exact ⟨⟨_, rfl⟩, fun kv => iff_of_false nofun nofun⟩
  | .error failure, ⟨hcurrent, hstatus, message, hfailure⟩ =>
    rw [hcurrent, hstatus, hfailure]
    exact ⟨⟨_, rfl⟩, fun kv => iff_of_false nofun nofun⟩

theorem current_corrupted (b : Block) (what : String) : b.current (b.corrupted what) = none :=
  if_neg (lt_irrefl _)

/-- **The two walks agree**, from one place with one key before it. -/
theorem seekWalk_findWalk (hb : b.Sound) : ∀ {turns : ℕ} {s : BlockIter},
    b.restartOffset ≤ turns + s.nextEntryOffset →
    b.Shows (b.seekWalk c target (turns + 1) s) s.status
      (b.findWalk c target (turns + 1) s.key s.nextEntryOffset) := by
  -- at the end of the entries both stop
  have hstop : ∀ {turns : ℕ} {s : BlockIter}, b.restartOffset ≤ s.nextEntryOffset →
      b.Shows (b.seekWalk c target (turns + 1) s) s.status
        (b.findWalk c target (turns + 1) s.key s.nextEntryOffset) := by
    intro turns s hend
    rw [seekWalk, findWalk, parseNextEntry]
    dsimp only
    rw [if_pos hend, if_pos hend]
    exact ⟨if_neg (lt_irrefl _), rfl⟩
  intro turns
  induction turns with
  | zero => exact fun hturns => hstop (by omega)
  | succ turns ih =>
    intro s hturns
    by_cases hend : b.restartOffset ≤ s.nextEntryOffset
    · exact hstop hend
    · rw [seekWalk, findWalk, parseNextEntry]
      dsimp only
      rw [if_neg hend, if_neg hend]
      cases hd : Ambar.decodeEntry (b.region s.nextEntryOffset) with
      | none => exact ⟨current_corrupted b _, rfl, _, rfl⟩
      | some r =>
        obtain ⟨h, p⟩ := r
        obtain ⟨hmove, -, hfit, hvalue⟩ := hb.decodeEntry hend hd
        dsimp only
        by_cases hshared : s.key.length < h.shared
        · rw [if_pos hshared, if_pos hshared]
          exact ⟨current_corrupted b _, rfl, _, rfl⟩
        · rw [if_neg hshared, if_neg hshared]
          by_cases hshort : (s.key.take h.shared ++ p.take h.nonShared).length < c.minKeyLength
          · rw [if_pos hshort, if_pos hshort]
            exact ⟨current_corrupted b _, rfl, _, rfl⟩
          · rw [if_neg hshort, if_neg hshort]
            dsimp only
            by_cases hless : c.less (s.key.take h.shared ++ p.take h.nonShared) target = true
            · rw [if_neg (not_not.mpr hless), if_neg (not_not.mpr hless)]
              refine ih ?_
              show _ ≤ turns + (b.restartOffset - p.length + h.nonShared + h.valueLength)
              omega
            · rw [if_pos hless, if_pos hless, hvalue]
              exact ⟨if_pos (not_le.mp hend), rfl⟩

/-! ## The two searches -/

/-- The two binary searches differ in one message only. -/
theorem searchRestarts_toOption (tooShort tooShort' : String) : ∀ turns left right,
    (b.searchRestarts c tooShort target turns left right).toOption =
      (b.searchRestarts c tooShort' target turns left right).toOption := by
  intro turns
  induction turns with
  | zero => exact fun _ _ => rfl
  | succ turns ih =>
    intro left right
    rw [searchRestarts, searchRestarts]
    by_cases hmore : left < right
    · rw [if_pos hmore, if_pos hmore]
      dsimp only
      by_cases hout : b.restartOffset ≤ b.restartPoint ((left + right + 1) / 2)
      · rw [if_pos hout, if_pos hout]
      · rw [if_neg hout, if_neg hout]
        cases Ambar.decodeEntry (b.region (b.restartPoint ((left + right + 1) / 2))) with
        | none => rfl
        | some r =>
          dsimp only
          split_ifs
          · rfl
          · rfl
          · exact ih _ _
          · exact ih _ _
    · rw [if_neg hmore, if_neg hmore]

theorem searchRestarts_le {tooShort : String} : ∀ {turns left right l : ℕ}, left ≤ right →
    b.searchRestarts c tooShort target turns left right = .ok l → l ≤ right := by
  intro turns
  induction turns with
  | zero =>
    intro left right l hle h
    cases h
    exact hle
  | succ turns ih =>
    intro left right l hle h
    rw [searchRestarts] at h
    by_cases hmore : left < right
    · rw [if_pos hmore] at h
      dsimp only at h
      split_ifs at h
      split at h
      · cases h
      · split_ifs at h
        · exact ih (by omega) h
        · exact (ih (by omega) h).trans (by omega)
    · rw [if_neg hmore] at h
      cases h
      exact hle

/-- `find` returns true exactly when the iterator ends valid, with the same key and value, and
    reports corruption exactly when the iterator's status does. -/
def FindSeekAgree (c : Comparator κ) (b : Block) (target : Bytes) : Prop :=
  let it := (AnyIter.cursor c).seek target b.newIterator
  (∀ kv, b.find c target = .ok (some kv) ↔ it.current = some kv) ∧
  ((∃ message, b.find c target = .error (.corruption message)) ↔
    ∃ message, it.status = .corruption message)

/-- The restart point the search ends on lies outside the entries, and a walk from the null
    value comes to an entry. -/
def SeekGoesOn (c : Comparator κ) (b : Block) (target : Bytes) : Prop :=
  4 ≤ b.size ∧ b.numRestarts ≠ 0 ∧
    ∃ left, b.searchRestarts c "key is too short for this comparator" target b.numRestarts 0
        (b.numRestarts - 1) = .ok left ∧
      b.restartOffset < b.restartPoint left ∧
      ∃ kv, b.findWalk c target (b.data.length + 1) [] b.nullOffset = .ok (some kv)

theorem findSeekAgree_iff (hb : 4 ≤ b.size → b.Sound) :
    FindSeekAgree c b target ↔ ¬ SeekGoesOn c b target := by
  unfold FindSeekAgree SeekGoesOn newIterator find
  by_cases hsize : b.size < 4
  · rw [if_pos hsize, if_pos hsize]
    refine iff_of_true ⟨fun kv => ?_, ?_⟩ fun h => absurd h.1 (not_le.mpr hsize)
    · exact iff_of_false nofun nofun
    · exact iff_of_true ⟨_, rfl⟩ ⟨_, rfl⟩
  rw [if_neg hsize, if_neg hsize]
  have hsound := hb (not_lt.mp hsize)
  by_cases hzero : b.numRestarts = 0
  · rw [if_pos hzero, if_pos hzero]
    refine iff_of_true ⟨fun kv => ?_, ?_⟩ fun h => h.2.1 hzero
    · exact iff_of_false nofun nofun
    · exact iff_of_false nofun nofun
  rw [if_neg hzero, if_neg hzero]
  have hsame := @searchRestarts_toOption κ _ c b target "key is too short for this comparator"
    "restart key is too short for this comparator" b.numRestarts 0 (b.numRestarts - 1)
  show (∀ kv, _ ↔ b.current (b.seek c target b.iter) = some kv) ∧
    (_ ↔ ∃ message, (b.seek c target b.iter).status = .corruption message) ↔ _
  unfold seek
  cases hseek : b.searchRestarts c "key is too short for this comparator" target b.numRestarts 0
      (b.numRestarts - 1) with
  | error what =>
    rw [hseek] at hsame
    cases hfind : b.searchRestarts c "restart key is too short for this comparator" target
        b.numRestarts 0 (b.numRestarts - 1) with
    | ok left => exact nomatch hsame.trans (congrArg Except.toOption hfind)
    | error what' =>
      refine iff_of_true ⟨fun kv => ?_, ?_⟩ fun ⟨_, _, left, hleft, _⟩ => nomatch hleft
      · exact iff_of_false nofun (by rw [current_corrupted]; exact nofun)
      · exact iff_of_true ⟨_, rfl⟩ ⟨_, rfl⟩
  | ok left =>
    rw [hseek] at hsame
    have hfind : b.searchRestarts c "restart key is too short for this comparator" target
        b.numRestarts 0 (b.numRestarts - 1) = .ok left := by
      cases hfind : b.searchRestarts c "restart key is too short for this comparator" target
          b.numRestarts 0 (b.numRestarts - 1) with
      | error what' => exact nomatch hsame.trans (congrArg Except.toOption hfind)
      | ok left' => rw [Option.some.inj (hsame.trans (congrArg Except.toOption hfind))]
    rw [hfind]
    dsimp only
    have hoffset : b.restartOffset ≤ b.data.length := by
      have := hsound.size
      omega
    by_cases hout : b.restartOffset < b.restartPoint left
    · -- `find` returns, the iterator walks on from the null value
      have hwalk := @seekWalk_findWalk κ _ c b target hsound b.data.length
        (b.corrupted "restart point lies outside the entry region") (by omega)
      obtain ⟨hstatus, hcurrent⟩ := hwalk.of_corruption
      rw [if_pos hout, show b.seekToRestartPoint left b.iter =
        b.corrupted "restart point lies outside the entry region" from if_pos hout]
      constructor
      · rintro ⟨hnone, -⟩ ⟨-, -, -, -, -, kv, hkv⟩
        exact nomatch (hnone kv).mpr ((hcurrent kv).mpr hkv)
      · intro hno
        refine ⟨fun kv => iff_of_false nofun fun hkv => hno ?_, iff_of_true ⟨_, rfl⟩ hstatus⟩
        exact ⟨not_lt.mp hsize, hzero, left, rfl, hout, kv, (hcurrent kv).mp hkv⟩
    · have hwalk := @seekWalk_findWalk κ _ c b target hsound b.data.length
        { b.iter with key := [], restartIndex := left, valueStart := b.restartPoint left } (by omega)
      rw [if_neg hout, show b.seekToRestartPoint left b.iter =
        { b.iter with key := [], restartIndex := left, valueStart := b.restartPoint left } from
        if_neg hout]
      refine iff_of_true hwalk.agree ?_
      rintro ⟨-, -, left', hleft, hout', -⟩
      exact hout (Except.ok.inj hleft ▸ hout')

/-! ## Reads and turns -/

/-! The searches once more, with every read of the block, of a key and of a comparison checked,
and every turn counted: `none` where a read leaves its bytes or the turns run out. -/

namespace Checked

/-- `n` bytes of the block. -/
def read (b : Block) (offset n : ℕ) : Option Bytes :=
  if offset + n ≤ b.data.length then some ((b.data.drop offset).take n) else none

/-- `get_restart_point`. -/
def restartPoint (b : Block) (index : ℕ) : Option ℕ :=
  (read b (b.restartOffset + index * 4) 4).map decodeFixed

/-- `decode_entry` with the end of the entries as its limit. -/
def decodeEntry (b : Block) (offset : ℕ) : Option (Option (EntryHeader × Bytes)) :=
  (read b offset (b.restartOffset - offset)).map Ambar.decodeEntry

/-- The first bytes of a key delta. -/
def delta (p : Bytes) (n : ℕ) : Option Bytes := if n ≤ p.length then some (p.take n) else none

/-- A comparison of keys that are long enough for it. -/
def less (c : Comparator κ) (x y : Bytes) : Option Bool :=
  if c.minKeyLength ≤ x.length ∧ c.minKeyLength ≤ y.length then some (c.less x y) else none

/-- The binary search. -/
def searchRestarts (c : Comparator κ) (b : Block) (tooShort : String) (target : Bytes) :
    (turns left right : ℕ) → Option (Except String ℕ)
  | 0, left, right => if left < right then none else some (.ok left)
  | turns + 1, left, right =>
    if left < right then do
      let mid := (left + right + 1) / 2
      let regionOffset ← restartPoint b mid
      if b.restartOffset ≤ regionOffset then
        some (.error "restart point lies outside the entry region")
      else
        match ← decodeEntry b regionOffset with
        | none => some (.error "restart point does not begin a key")
        | some (h, p) =>
          if h.shared ≠ 0 then some (.error "restart point does not begin a key")
          else if h.nonShared < c.minKeyLength then some (.error tooShort)
          else do
            if ← less c (← delta p h.nonShared) target then
              searchRestarts c b tooShort target turns mid right
            else searchRestarts c b tooShort target turns left (mid - 1)
    else some (.ok left)

/-- `restart_index_` kept in step. -/
def advanceRestart (b : Block) (next : ℕ) : (turns index : ℕ) → Option ℕ
  | 0, index => if index + 1 < b.numRestarts then none else some index
  | turns + 1, index =>
    if index + 1 < b.numRestarts then do
      if (← restartPoint b (index + 1)) < next then advanceRestart b next turns (index + 1)
      else some index
    else some index

/-- `parse_next_entry`. -/
def parseNextEntry (c : Comparator κ) (b : Block) (s : BlockIter) : Option (Bool × BlockIter) :=
  let current := s.nextEntryOffset
  if b.restartOffset ≤ current then
    some (false, { s with current := b.restartOffset, restartIndex := b.numRestarts })
  else do
    match ← decodeEntry b current with
    | none => some (false, b.corrupted "entry runs past the end of the block")
    | some (h, p) =>
      if s.key.length < h.shared then
        some (false, b.corrupted "shared prefix longer than the previous key")
      else do
        let key := s.key.take h.shared ++ (← delta p h.nonShared)
        if key.length < c.minKeyLength then
          some (false, b.corrupted "key is too short for this comparator")
        else do
          let valueStart := b.restartOffset - p.length + h.nonShared
          let _ ← read b valueStart h.valueLength
          let index ← advanceRestart b (valueStart + h.valueLength) b.numRestarts s.restartIndex
          some (true, ⟨current, index, key, valueStart, h.valueLength, s.status⟩)

/-- The walk of `seek`. -/
def seekWalk (c : Comparator κ) (b : Block) (target : Bytes) : (turns : ℕ) → BlockIter → Option BlockIter
  | 0, _ => none
  | turns + 1, s => do
    match ← parseNextEntry c b s with
    | (false, s) => some s
    | (true, s) => if ¬ (← less c s.key target) then some s else seekWalk c b target turns s

/-- `seek`. -/
def seek (c : Comparator κ) (b : Block) (target : Bytes) (s : BlockIter) : Option BlockIter := do
  match ← searchRestarts c b "key is too short for this comparator" target b.numRestarts 0
      (b.numRestarts - 1) with
  | .error what => some (b.corrupted what)
  | .ok left => do
    let _ ← restartPoint b left
    seekWalk c b target (b.data.length + 1) (b.seekToRestartPoint left s)

/-- The walk of `find`. -/
def findWalk (c : Comparator κ) (b : Block) (target : Bytes) :
    (turns : ℕ) → (key : Bytes) → (offset : ℕ) → Option (Except Status (Option KeyValue))
  | 0, _, _ => none
  | turns + 1, key, offset =>
    if b.restartOffset ≤ offset then some (.ok none)
    else do
      match ← decodeEntry b offset with
      | none => some (.error (.corruption "bad block entry: entry runs past the end of the block"))
      | some (h, p) =>
        if key.length < h.shared then
          some (.error (.corruption "bad block entry: shared prefix longer than the previous key"))
        else do
          let key := key.take h.shared ++ (← delta p h.nonShared)
          if key.length < c.minKeyLength then
            some (.error (.corruption "bad block entry: key is too short for this comparator"))
          else do
            let valueStart := b.restartOffset - p.length + h.nonShared
            let value ← read b valueStart h.valueLength
            if ¬ (← less c key target) then some (.ok (some (key, value)))
            else findWalk c b target turns key (valueStart + h.valueLength)

/-- `Block::find`. -/
def find (c : Comparator κ) (b : Block) (target : Bytes) : Option (Except Status (Option KeyValue)) :=
  if b.size < 4 then some (.error (.corruption "block is too small"))
  else if b.numRestarts = 0 then some (.ok none)
  else do
    match ← searchRestarts c b "restart key is too short for this comparator" target b.numRestarts 0
        (b.numRestarts - 1) with
    | .error what => some (.error (.corruption ("bad block entry: " ++ what)))
    | .ok left =>
      let start ← restartPoint b left
      if b.restartOffset < start then
        some (.error (.corruption "bad block entry: restart point lies outside the entry region"))
      else findWalk c b target (b.data.length + 1) [] start

/-! ### Nothing goes wrong -/

theorem read_eq {offset n : ℕ} (h : offset + n ≤ b.data.length) :
    read b offset n = some ((b.data.drop offset).take n) := if_pos h

theorem restartPoint_eq (hb : b.Sound) {index : ℕ} (hi : index < b.numRestarts) :
    restartPoint b index = some (b.restartPoint index) := by
  have hsize := hb.size
  rw [restartPoint, read_eq (by omega)]
  rfl

theorem decodeEntry_eq (hb : b.Sound) {offset : ℕ} (h : ¬ b.restartOffset ≤ offset) :
    decodeEntry b offset = some (Ambar.decodeEntry (b.region offset)) := by
  have hsize := hb.size
  rw [decodeEntry, read_eq (by omega), Option.map_some, region, List.drop_take]

theorem less_eq {x y : Bytes} (hx : ¬ x.length < c.minKeyLength) (hy : c.minKeyLength ≤ y.length) :
    less c x y = some (c.less x y) := if_pos ⟨not_lt.mp hx, hy⟩

theorem searchRestarts_eq (hb : b.Sound) (htarget : c.minKeyLength ≤ target.length)
    (tooShort : String) : ∀ {turns left right : ℕ}, right < b.numRestarts → right ≤ turns + left →
      searchRestarts c b tooShort target turns left right =
          some (b.searchRestarts c tooShort target turns left right) := by
  intro turns
  induction turns with
  | zero =>
    intro left right _ hle
    rw [searchRestarts, if_neg (by omega), Block.searchRestarts]
  | succ turns ih =>
    intro left right hright hle
    rw [searchRestarts, Block.searchRestarts]
    by_cases hmore : left < right
    · rw [if_pos hmore, if_pos hmore]
      dsimp only
      rw [restartPoint_eq hb (by omega), Option.bind_eq_bind, Option.bind_some]
      by_cases hout : b.restartOffset ≤ b.restartPoint ((left + right + 1) / 2)
      · rw [if_pos hout, if_pos hout]
      · rw [if_neg hout, if_neg hout, decodeEntry_eq hb hout, Option.bind_eq_bind, Option.bind_some]
        cases hd : Ambar.decodeEntry (b.region (b.restartPoint ((left + right + 1) / 2))) with
        | none => rfl
        | some r =>
          obtain ⟨h, p⟩ := r
          obtain ⟨-, -, hfit⟩ := decodeEntry_spec hd
          dsimp only
          by_cases hshared : h.shared ≠ 0
          · rw [if_pos hshared, if_pos hshared]
          · rw [if_neg hshared, if_neg hshared]
            by_cases hshort : h.nonShared < c.minKeyLength
            · rw [if_pos hshort, if_pos hshort]
            · rw [if_neg hshort, if_neg hshort, delta, if_pos (by omega), Option.bind_eq_bind,
                Option.bind_some, less_eq (by rw [List.length_take]; omega) htarget,
                Option.bind_eq_bind, Option.bind_some]
              split_ifs
              · exact ih hright (by omega)
              · exact ih (by omega) (by omega)
    · rw [if_neg hmore, if_neg hmore]

theorem advanceRestart_eq (hb : b.Sound) (next : ℕ) : ∀ {turns index : ℕ},
    b.numRestarts ≤ turns + index + 1 →
      advanceRestart b next turns index = some (b.advanceRestart next turns index) := by
  intro turns
  induction turns with
  | zero =>
    intro index hle
    rw [advanceRestart, if_neg (by omega), Block.advanceRestart]
  | succ turns ih =>
    intro index hle
    rw [advanceRestart, Block.advanceRestart]
    by_cases hmore : index + 1 < b.numRestarts
    · rw [if_pos hmore, restartPoint_eq hb hmore, Option.bind_eq_bind, Option.bind_some]
      by_cases hlt : b.restartPoint (index + 1) < next
      · rw [if_pos hlt, if_pos ⟨hmore, hlt⟩]
        exact ih (by omega)
      · rw [if_neg hlt, if_neg fun h => hlt h.2]
    · rw [if_neg hmore, if_neg fun h => hmore h.1]

omit [LinearOrder κ] in
theorem parseNextEntry_eq (hb : b.Sound) (s : BlockIter) :
    parseNextEntry c b s = some (b.parseNextEntry c s) := by
  have hsize := hb.size
  rw [parseNextEntry, Block.parseNextEntry]
  dsimp only
  by_cases hend : b.restartOffset ≤ s.nextEntryOffset
  · rw [if_pos hend, if_pos hend]
  · rw [if_neg hend, if_neg hend, decodeEntry_eq hb hend, Option.bind_eq_bind, Option.bind_some]
    cases hd : Ambar.decodeEntry (b.region s.nextEntryOffset) with
    | none => rfl
    | some r =>
      obtain ⟨h, p⟩ := r
      obtain ⟨hmove, hle, hfit, -⟩ := hb.decodeEntry hend hd
      dsimp only
      by_cases hshared : s.key.length < h.shared
      · rw [if_pos hshared, if_pos hshared]
      · rw [if_neg hshared, if_neg hshared, delta, if_pos (by omega), Option.bind_eq_bind,
          Option.bind_some]
        by_cases hshort : (s.key.take h.shared ++ p.take h.nonShared).length < c.minKeyLength
        · rw [if_pos hshort, if_pos hshort]
        · rw [if_neg hshort, if_neg hshort, read_eq (by omega), Option.bind_eq_bind,
            Option.bind_some, advanceRestart_eq hb _ (by omega), Option.bind_some]

theorem seekWalk_eq (hb : b.Sound) (htarget : c.minKeyLength ≤ target.length) :
    ∀ {turns : ℕ} {s : BlockIter}, b.restartOffset ≤ turns + s.nextEntryOffset →
      seekWalk c b target (turns + 1) s = some (b.seekWalk c target (turns + 1) s) := by
  intro turns
  induction turns with
  | zero =>
    intro s hturns
    rw [seekWalk, Block.seekWalk, parseNextEntry_eq hb, Option.bind_eq_bind, Option.bind_some,
      Block.parseNextEntry]
    dsimp only
    rw [if_pos (by omega)]
  | succ turns ih =>
    intro s hturns
    rw [seekWalk, Block.seekWalk, parseNextEntry_eq hb, Option.bind_eq_bind, Option.bind_some]
    cases hparse : b.parseNextEntry c s with
    | mk more s' =>
      cases more with
      | false => rfl
      | true =>
        obtain ⟨hmove, hkey⟩ := parseNextEntry_moves hb hparse
        dsimp only
        rw [less_eq hkey htarget, Option.bind_eq_bind, Option.bind_some]
        split_ifs
        · exact ih (by omega)
        · rfl

theorem seek_eq (hb : b.Sound) (hpos : b.numRestarts ≠ 0) (htarget : c.minKeyLength ≤ target.length)
    (s : BlockIter) : seek c b target s = some (b.seek c target s) := by
  have hsize := hb.size
  rw [seek, searchRestarts_eq hb htarget _ (by omega) (by omega), Option.bind_eq_bind,
    Option.bind_some, Block.seek]
  cases hsearch : b.searchRestarts c "key is too short for this comparator" target b.numRestarts 0
      (b.numRestarts - 1) with
  | error what => rfl
  | ok left =>
    have hleft := searchRestarts_le (by omega) hsearch
    dsimp only
    rw [restartPoint_eq hb (by omega), Option.bind_eq_bind, Option.bind_some]
    exact seekWalk_eq hb htarget (by omega)

theorem findWalk_eq (hb : b.Sound) (htarget : c.minKeyLength ≤ target.length) :
    ∀ {turns : ℕ} {key : Bytes} {offset : ℕ}, b.restartOffset ≤ turns + offset →
      findWalk c b target (turns + 1) key offset =
        some (b.findWalk c target (turns + 1) key offset) := by
  have hsize := hb.size
  intro turns
  induction turns with
  | zero =>
    intro key offset hturns
    rw [findWalk, Block.findWalk, if_pos (by omega), if_pos (by omega)]
  | succ turns ih =>
    intro key offset hturns
    rw [findWalk, Block.findWalk]
    by_cases hend : b.restartOffset ≤ offset
    · rw [if_pos hend, if_pos hend]
    · rw [if_neg hend, if_neg hend, decodeEntry_eq hb hend, Option.bind_eq_bind, Option.bind_some]
      cases hd : Ambar.decodeEntry (b.region offset) with
      | none => rfl
      | some r =>
        obtain ⟨h, p⟩ := r
        obtain ⟨hmove, hle, hfit, hvalue⟩ := hb.decodeEntry hend hd
        dsimp only
        by_cases hshared : key.length < h.shared
        · rw [if_pos hshared, if_pos hshared]
        · rw [if_neg hshared, if_neg hshared, delta, if_pos (by omega), Option.bind_eq_bind,
            Option.bind_some]
          by_cases hshort : (key.take h.shared ++ p.take h.nonShared).length < c.minKeyLength
          · rw [if_pos hshort, if_pos hshort]
          · rw [if_neg hshort, if_neg hshort, read_eq (by omega), Option.bind_eq_bind,
              Option.bind_some, less_eq hshort htarget, Option.bind_some, hvalue]
            split_ifs
            · exact ih (by omega)
            · rfl

theorem find_eq (hb : 4 ≤ b.size → b.Sound) (htarget : c.minKeyLength ≤ target.length) :
    find c b target = some (b.find c target) := by
  rw [find, Block.find]
  by_cases hsmall : b.size < 4
  · rw [if_pos hsmall, if_pos hsmall]
  rw [if_neg hsmall, if_neg hsmall]
  by_cases hzero : b.numRestarts = 0
  · rw [if_pos hzero, if_pos hzero]
  have hsound := hb (not_lt.mp hsmall)
  have hsize := hsound.size
  rw [if_neg hzero, if_neg hzero, searchRestarts_eq hsound htarget _ (by omega) (by omega),
    Option.bind_eq_bind, Option.bind_some]
  cases hsearch : b.searchRestarts c "restart key is too short for this comparator" target
      b.numRestarts 0 (b.numRestarts - 1) with
  | error what => rfl
  | ok left =>
    have hleft := searchRestarts_le (by omega) hsearch
    dsimp only
    rw [restartPoint_eq hsound (by omega), Option.bind_eq_bind, Option.bind_some]
    split_ifs
    · rfl
    · exact findWalk_eq hsound htarget (by omega)

end Checked

/-- **`find` and `seek`.** On every contents of a block, at every address, the two agree unless the
    iterator walks on from the null value and comes to an entry. Both end, and read nothing
    outside the block. -/
theorem find_seek_agree_iff (c : Comparator κ) (address : ℕ) {contents target : Bytes}
    (hlen : contents.length < 2 ^ 32) (htarget : c.minKeyLength ≤ target.length) :
    (FindSeekAgree c (newAt address contents) target ↔
      ¬ SeekGoesOn c (newAt address contents) target) ∧
    Checked.find c (newAt address contents) target = some ((newAt address contents).find c target) ∧
    (4 ≤ (newAt address contents).size → (newAt address contents).numRestarts ≠ 0 →
      Checked.seek c (newAt address contents) target (newAt address contents).iter =
        some ((newAt address contents).seek c target (newAt address contents).iter)) := by
  have hsound := @newAt_sound address contents hlen
  exact ⟨findSeekAgree_iff hsound, Checked.find_eq hsound htarget,
    fun hsize hpos => Checked.seek_eq (hsound hsize) hpos htarget _⟩

/-! ## A restart point outside the entries -/

/-- One entry, with the key `b` and no value, and a restart point far behind it. -/
def strayRestart : Bytes := [0, 1, 0, 98] ++ putFixed 4 100 ++ putFixed 4 1

/-- **The iterator goes on.** Stored at `2 ^ 32`, the block is corrupt for `find`, and the iterator
    that was sought to `a` is valid on `b`. -/
theorem seek_goes_on :
    (newAt (2 ^ 32) strayRestart).find bytewiseComparator [97] =
        .error (.corruption "bad block entry: restart point lies outside the entry region") ∧
      ((AnyIter.cursor bytewiseComparator).seek [97]
        (newAt (2 ^ 32) strayRestart).newIterator).current = some ([98], []) := by
  decide +kernel

theorem find_seek_agree_iff_strayRestart :
    FindSeekAgree bytewiseComparator (newAt (2 ^ 32) strayRestart) [97] ↔
      ¬ SeekGoesOn bytewiseComparator (newAt (2 ^ 32) strayRestart) [97] :=
  (find_seek_agree_iff bytewiseComparator (2 ^ 32) (by decide) (by decide)).1

end Block

end Ambar
