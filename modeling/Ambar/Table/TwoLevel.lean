import Ambar.Lib.Follows
import Ambar.Lib.Parts
import Ambar.Table.BlockBuilder

/-!
# Two levels of iterators

`TwoLevelIterator` (`src/two_level_iterator.cpp`): an iterator over an index whose values
say which iterator holds the entries, one of them open at a time. Blocks may be empty,
and the iterators of the index and of the blocks may fail.

* `TwoLevels.Indexes`: an index over groups of entries, with a separator after each group.
* `TwoLevels.Indexes.reported`: a failure is reported from then on.
* `TwoLevels.Indexes.followsUnless`: until then the iterator follows the concatenation of
  the groups.
-/

namespace Ambar

open Lib (offsetAt Cursor FollowsUnless Move posCursor posOf lastPos posBefore posOf_of_lt posOf_of_le)

/-- What a two-level iterator is made of: the iterator of the index, and the one
    `block_function` opens for an index value. Its loops make at most `turns` turns. -/
structure TwoLevels (σ τ : Type) where
  index : Cursor σ KeyValue Bytes
  indexStatus : σ → Status
  data : Cursor τ KeyValue Bytes
  dataStatus : τ → Status
  function : (indexValue : Bytes) → τ
  turns : ℕ

/-- `class TwoLevelIterator`. `visited`, which the code does not keep, are the data
    iterators it has had, after each of their moves. -/
structure TwoLevelIterator (σ τ : Type) where
  index : σ
  data : Option τ
  dataBlockHandle : Bytes
  status : Status
  visited : List τ

namespace TwoLevels

variable {σ τ : Type} (L : TwoLevels σ τ)

/-- The constructor (lines 13–18). -/
def new (index : σ) : TwoLevelIterator σ τ := ⟨index, none, [], .ok, []⟩

/-- The entry the iterator stands on, where it is valid (lines 22–27). -/
def current (t : TwoLevelIterator σ τ) : Option KeyValue := t.data.bind L.data.current

/-- `status` (lines 60–70). -/
def status (t : TwoLevelIterator σ τ) : Status :=
  if L.indexStatus t.index ≠ .ok then L.indexStatus t.index
  else
    match t.data with
    | none => t.status
    | some d => if L.dataStatus d ≠ .ok then L.dataStatus d else t.status

/-- `save_error` (lines 73–75) with the status of the data iterator, if there is one. -/
def saveError (t : TwoLevelIterator σ τ) : TwoLevelIterator σ τ :=
  match t.data with
  | none => t
  | some d =>
    if t.status = .ok ∧ L.dataStatus d ≠ .ok then { t with status := L.dataStatus d } else t

/-- `set_data_iterator` (lines 103–106). -/
def setDataIterator (data : Option τ) (t : TwoLevelIterator σ τ) : TwoLevelIterator σ τ :=
  { L.saveError t with data := data, visited := t.visited ++ data.toList }

/-- `init_data_block` (lines 108–120). -/
def initDataBlock (t : TwoLevelIterator σ τ) : TwoLevelIterator σ τ :=
  match L.index.current t.index with
  | none => L.setDataIterator none t
  | some (_, handle) =>
    if t.data.isSome ∧ handle = t.dataBlockHandle then t
    else L.setDataIterator (some (L.function handle)) { t with dataBlockHandle := handle }

/-- The data iterator moves, if there is one. -/
def moveData (f : τ → τ) (t : TwoLevelIterator σ τ) : TwoLevelIterator σ τ :=
  { t with data := t.data.map f, visited := t.visited ++ (t.data.map f).toList }

/-- The index iterator moves, its block is opened, and the data iterator moves. -/
def reposition (moveIndex : σ → σ) (f : τ → τ) (t : TwoLevelIterator σ τ) : TwoLevelIterator σ τ :=
  moveData f (L.initDataBlock { t with index := moveIndex t.index })

/-- The loops of `skip_empty_blocks_forward` and `skip_empty_blocks_backward`
    (lines 77–101). -/
def skipEmptyBlocks (moveIndex : σ → σ) (f : τ → τ) :
    (turns : ℕ) → TwoLevelIterator σ τ → TwoLevelIterator σ τ
  | 0, t => t
  | turns + 1, t =>
    if (L.current t).isSome then t
    else
      let t := L.saveError t
      if (L.index.current t.index).isNone then L.setDataIterator none t
      else skipEmptyBlocks moveIndex f turns (L.reposition moveIndex f t)

def skipEmptyBlocksForward : TwoLevelIterator σ τ → TwoLevelIterator σ τ :=
  L.skipEmptyBlocks L.index.next L.data.seekToFirst L.turns

def skipEmptyBlocksBackward : TwoLevelIterator σ τ → TwoLevelIterator σ τ :=
  L.skipEmptyBlocks L.index.prev L.data.seekToLast L.turns

/-- `TwoLevelIterator` as an iterator (lines 29–58). -/
def twoLevelCursor : Cursor (TwoLevelIterator σ τ) KeyValue Bytes where
  current := L.current
  seekToFirst t := L.skipEmptyBlocksForward (L.reposition L.index.seekToFirst L.data.seekToFirst t)
  seekToLast t := L.skipEmptyBlocksBackward (L.reposition L.index.seekToLast L.data.seekToLast t)
  seek target t :=
    L.skipEmptyBlocksForward (L.reposition (L.index.seek target) (L.data.seek target) t)
  next t := L.skipEmptyBlocksForward (moveData L.data.next t)
  prev t := L.skipEmptyBlocksBackward (moveData L.data.prev t)

/-! ## An index over groups of entries -/

/-- The index has one entry for each group, the iterator opened for its value follows
    the group unless it fails, and its key separates the group from the later ones. -/
structure Indexes (L : TwoLevels σ τ) (below : Bytes → KeyValue → Bool) (index : List KeyValue)
    (groups : List (List KeyValue)) (RI : σ → Option ℕ → Prop) (RD : ℕ → τ → Option ℕ → Prop)
    (indexFailed : σ → Prop) (failed : τ → Prop) : Prop where
  turns : index.length ≤ L.turns
  length : index.length = groups.length
  index_follows : FollowsUnless L.index below index RI indexFailed
  index_status : ∀ s p, RI s p → L.indexStatus s = .ok
  index_failed : ∀ s, indexFailed s → L.indexStatus s ≠ .ok
  data_follows : ∀ (i : ℕ) (g : List KeyValue), groups[i]? = some g →
    FollowsUnless L.data below g (RD i) failed
  data_status : ∀ i d q, RD i d q → L.dataStatus d = .ok
  data_failed : ∀ d, failed d → L.dataStatus d ≠ .ok
  data_sticky : ∀ d m, failed d → failed (L.data.move m d)
  opened : ∀ (i : ℕ) (kv : KeyValue), index[i]? = some kv →
    RD i (L.function kv.2) none ∨ failed (L.function kv.2)
  handles : ∀ (i j : ℕ) (kv kv' : KeyValue), index[i]? = some kv → index[j]? = some kv' →
    kv.2 = kv'.2 → ∀ d q, RD i d q → RD j d q
  before : ∀ (i : ℕ) (kv : KeyValue) (g : List KeyValue), index[i]? = some kv → groups[i]? = some g →
    ∀ k, below k kv = true → ∀ e ∈ g, below k e = true
  after : ∀ (i j : ℕ) (kv : KeyValue) (g : List KeyValue), i < j → index[i]? = some kv →
    groups[j]? = some g → ∀ k, below k kv = false → ∀ e ∈ g, below k e = false

variable {L} {below : Bytes → KeyValue → Bool} {index : List KeyValue} {groups : List (List KeyValue)}
  {RI : σ → Option ℕ → Prop} {RD : ℕ → τ → Option ℕ → Prop} {indexFailed : σ → Prop}
  {failed : τ → Prop} {t : TwoLevelIterator σ τ} {i j : ℕ} {q : Option ℕ}

/-! ## Failures -/

/-- The index has failed, or a data iterator has. -/
def Met (indexFailed : σ → Prop) (failed : τ → Prop) (t : TwoLevelIterator σ τ) : Prop :=
  indexFailed t.index ∨ ∃ d ∈ t.visited, failed d

/-- A failure that a caller can see: of the index, kept, or of the open data iterator. -/
def Reported (indexFailed : σ → Prop) (failed : τ → Prop) (t : TwoLevelIterator σ τ) : Prop :=
  indexFailed t.index ∨ t.status ≠ .ok ∨ ∃ d, t.data = some d ∧ failed d

/-- No failure is lost. -/
def Honest (indexFailed : σ → Prop) (failed : τ → Prop) (t : TwoLevelIterator σ τ) : Prop :=
  Met indexFailed failed t → Reported indexFailed failed t

theorem mem_visited_setDataIterator {d : τ} {data : Option τ} (hd : d ∈ t.visited) :
    d ∈ (L.setDataIterator data t).visited := List.mem_append_left _ hd

section

variable (hdata : ∀ d, failed d → L.dataStatus d ≠ .ok)
include hdata

/-- What an iterator that is replaced reported is kept. -/
theorem Honest.setDataIterator (h : Honest indexFailed failed t) (data : Option τ) :
    Honest indexFailed failed (L.setDataIterator data t) := by
  have hindex : (L.setDataIterator data t).index = t.index := by
    show (L.saveError t).index = _
    unfold saveError
    split
    · rfl
    · split_ifs <;> rfl
  -- what was reported before is in the status now
  have hkept : Reported indexFailed failed t → Reported indexFailed failed (L.setDataIterator data t) := by
    rintro (hi | hs | ⟨d, hd, hf⟩)
    · exact Or.inl (hindex ▸ hi)
    · refine Or.inr (Or.inl ?_)
      show (L.saveError t).status ≠ .ok
      unfold saveError
      split
      · exact hs
      · rw [if_neg fun h => hs h.1]
        exact hs
    · refine Or.inr (Or.inl ?_)
      show (L.saveError t).status ≠ .ok
      unfold saveError
      rw [hd]
      simp only
      split_ifs with hcond
      · exact hdata d hf
      · exact fun hok => hcond ⟨hok, hdata d hf⟩
  rintro (hi | ⟨d, hd, hf⟩)
  · exact Or.inl hi
  · rcases List.mem_append.mp hd with hd | hd
    · exact hkept (h (Or.inr ⟨d, hd, hf⟩))
    · exact Or.inr (Or.inr ⟨d, Option.mem_toList.mp hd, hf⟩)

theorem Honest.initDataBlock (h : Honest indexFailed failed t) :
    Honest indexFailed failed (L.initDataBlock t) := by
  unfold TwoLevels.initDataBlock
  split
  · exact h.setDataIterator hdata none
  · split_ifs
    · exact h
    · exact Honest.setDataIterator hdata (by exact h) _

omit hdata in
theorem Honest.saveError (h : Honest indexFailed failed t) : Honest indexFailed failed (L.saveError t) := by
  unfold TwoLevels.saveError
  split
  · exact h
  · next d hd =>
    split_ifs with hcond
    · rintro (hi | hv)
      · exact Or.inl hi
      · exact Or.inr (Or.inl hcond.2)
    · exact h

omit hdata in
theorem Honest.moveData (hsticky : ∀ d m, failed d → failed (L.data.move m d)) (m : Move Bytes)
    (h : Honest indexFailed failed t) :
    Honest indexFailed failed (TwoLevels.moveData (L.data.move m) t) := by
  have hkept : Reported indexFailed failed t →
      Reported indexFailed failed (TwoLevels.moveData (L.data.move m) t) := by
    rintro (hi | hs | ⟨d, hd, hf⟩)
    · exact Or.inl hi
    · exact Or.inr (Or.inl hs)
    · refine Or.inr (Or.inr ⟨L.data.move m d, ?_, hsticky d m hf⟩)
      show t.data.map _ = _
      rw [hd]
      rfl
  rintro (hi | ⟨d, hd, hf⟩)
  · exact Or.inl hi
  · rcases List.mem_append.mp hd with hd | hd
    · exact hkept (h (Or.inr ⟨d, hd, hf⟩))
    · exact Or.inr (Or.inr ⟨d, Option.mem_toList.mp hd, hf⟩)

variable (hindex : ∀ s m, indexFailed s → indexFailed (L.index.move m s))
  (hsticky : ∀ d m, failed d → failed (L.data.move m d))
include hindex hsticky

theorem Honest.reposition (h : Honest indexFailed failed t) (m m' : Move Bytes) :
    Honest indexFailed failed (L.reposition (L.index.move m) (L.data.move m') t) := by
  refine Honest.moveData hsticky m' (Honest.initDataBlock hdata ?_)
  rintro (hi | hv)
  · exact Or.inl hi
  · rcases h (Or.inr hv) with hi | hr
    · exact Or.inl (hindex _ m hi)
    · exact Or.inr hr

theorem Honest.skipEmptyBlocks (m m' : Move Bytes) :
    ∀ (turns : ℕ) {t : TwoLevelIterator σ τ}, Honest indexFailed failed t →
      Honest indexFailed failed (L.skipEmptyBlocks (L.index.move m) (L.data.move m') turns t) := by
  intro turns
  induction turns with
  | zero => exact fun h => h
  | succ turns ih =>
    intro t h
    unfold TwoLevels.skipEmptyBlocks
    simp only
    split_ifs
    · exact h
    · exact (h.saveError).setDataIterator hdata none
    · exact ih ((h.saveError).reposition hdata hindex hsticky m m')

/-- **No move loses a failure.** -/
theorem Honest.move (m : Move Bytes) (h : Honest indexFailed failed t) :
    Honest indexFailed failed (L.twoLevelCursor.move m t) := by
  cases m with
  | seekToFirst =>
    exact .skipEmptyBlocks hdata hindex hsticky .next .seekToFirst _
      (h.reposition hdata hindex hsticky .seekToFirst .seekToFirst)
  | seekToLast =>
    exact .skipEmptyBlocks hdata hindex hsticky .prev .seekToLast _
      (h.reposition hdata hindex hsticky .seekToLast .seekToLast)
  | seek k =>
    exact .skipEmptyBlocks hdata hindex hsticky .next .seekToFirst _
      (h.reposition hdata hindex hsticky (.seek k) (.seek k))
  | next =>
    exact .skipEmptyBlocks hdata hindex hsticky .next .seekToFirst _ (h.moveData hsticky .next)
  | prev =>
    exact .skipEmptyBlocks hdata hindex hsticky .prev .seekToLast _ (h.moveData hsticky .prev)

end

/-! ### What is met stays met -/

section

variable (hindex : ∀ s m, indexFailed s → indexFailed (L.index.move m s))

theorem Met.setDataIterator (h : Met indexFailed failed t) (data : Option τ) :
    Met indexFailed failed (L.setDataIterator data t) := by
  rcases h with hi | ⟨d, hd, hf⟩
  · refine Or.inl ?_
    show indexFailed (L.saveError t).index
    unfold TwoLevels.saveError
    split
    · exact hi
    · split_ifs <;> exact hi
  · exact Or.inr ⟨d, mem_visited_setDataIterator hd, hf⟩

theorem Met.initDataBlock (h : Met indexFailed failed t) : Met indexFailed failed (L.initDataBlock t) := by
  unfold TwoLevels.initDataBlock
  split
  · exact h.setDataIterator none
  · split_ifs
    · exact h
    · exact Met.setDataIterator (by exact h) _

theorem Met.saveError (h : Met indexFailed failed t) : Met indexFailed failed (L.saveError t) := by
  unfold TwoLevels.saveError
  split
  · exact h
  · split_ifs <;> exact h

theorem Met.moveData (h : Met indexFailed failed t) (f : τ → τ) :
    Met indexFailed failed (TwoLevels.moveData f t) := by
  rcases h with hi | ⟨d, hd, hf⟩
  · exact Or.inl hi
  · exact Or.inr ⟨d, List.mem_append_left _ hd, hf⟩

include hindex

theorem Met.reposition (h : Met indexFailed failed t) (m : Move Bytes) (f : τ → τ) :
    Met indexFailed failed (L.reposition (L.index.move m) f t) := by
  refine Met.moveData (Met.initDataBlock ?_) f
  rcases h with hi | hv
  · exact Or.inl (hindex _ m hi)
  · exact Or.inr hv

theorem Met.skipEmptyBlocks (m : Move Bytes) (f : τ → τ) :
    ∀ (turns : ℕ) {t : TwoLevelIterator σ τ}, Met indexFailed failed t →
      Met indexFailed failed (L.skipEmptyBlocks (L.index.move m) f turns t) := by
  intro turns
  induction turns with
  | zero => exact fun h => h
  | succ turns ih =>
    intro t h
    unfold TwoLevels.skipEmptyBlocks
    simp only
    split_ifs
    · exact h
    · exact h.saveError.setDataIterator none
    · exact ih (h.saveError.reposition hindex m f)

theorem Met.move (m : Move Bytes) (h : Met indexFailed failed t) :
    Met indexFailed failed (L.twoLevelCursor.move m t) := by
  cases m with
  | seekToFirst => exact .skipEmptyBlocks hindex .next _ _ (h.reposition hindex .seekToFirst _)
  | seekToLast => exact .skipEmptyBlocks hindex .prev _ _ (h.reposition hindex .seekToLast _)
  | seek k => exact .skipEmptyBlocks hindex .next _ _ (h.reposition hindex (.seek k) _)
  | next => exact .skipEmptyBlocks hindex .next _ _ (h.moveData _)
  | prev => exact .skipEmptyBlocks hindex .prev _ _ (h.moveData _)

end

/-! ## Positions -/

/-- Group `i` is open, and its iterator stands at `q`. -/
structure Opened (index : List KeyValue) (RI : σ → Option ℕ → Prop) (RD : ℕ → τ → Option ℕ → Prop)
    (t : TwoLevelIterator σ τ) (i : ℕ) (q : Option ℕ) : Prop where
  place : RI t.index (some i)
  data : ∃ d, t.data = some d ∧ RD i d q
  handle : ∃ kv, index[i]? = some kv ∧ t.dataBlockHandle = kv.2
  status : t.status = .ok

/-- The iterator is past an end. -/
structure Closed (RI : σ → Option ℕ → Prop) (t : TwoLevelIterator σ τ) : Prop where
  place : RI t.index none
  data : t.data = none
  status : t.status = .ok

/-- Where the index iterator leads: to a group, or past an end. -/
def Leads (index : List KeyValue) (RI : σ → Option ℕ → Prop) (RD : ℕ → τ → Option ℕ → Prop)
    (t : TwoLevelIterator σ τ) : Option ℕ → (ℕ → Option ℕ) → Prop
  | none, _ => Closed RI t
  | some i, q => Opened index RI RD t i (q i)

/-- Positions of the iterator. -/
def Position (index : List KeyValue) (groups : List (List KeyValue)) (RI : σ → Option ℕ → Prop)
    (RD : ℕ → τ → Option ℕ → Prop) (t : TwoLevelIterator σ τ) : Option ℕ → Prop
  | none => Closed RI t
  | some n => ∃ i j, Opened index RI RD t i (some j) ∧ n = offsetAt groups i + j

/-- What every state knows of the open group, wherever its index iterator stands. -/
structure Loose (index : List KeyValue) (RD : ℕ → τ → Option ℕ → Prop) (t : TwoLevelIterator σ τ) :
    Prop where
  data : ∀ d, t.data = some d → ∃ i q kv, index[i]? = some kv ∧ t.dataBlockHandle = kv.2 ∧ RD i d q
  status : t.status = .ok

theorem Opened.loose (h : Opened index RI RD t i q) : Loose index RD t where
  data := by
    intro d hd
    obtain ⟨d', hd', hrd⟩ := h.data
    obtain ⟨kv, hkv, hhandle⟩ := h.handle
    obtain rfl : d' = d := Option.some.inj (hd'.symm.trans hd)
    exact ⟨i, q, kv, hkv, hhandle, hrd⟩
  status := h.status

theorem Closed.loose (h : Closed RI t) : Loose index RD t where
  data := by
    intro d hd
    rw [h.data] at hd
    cases hd
  status := h.status

theorem Loose.follows (h : Loose index RD t) (d : τ) (hd : t.data = some d) : ∃ i q, RD i d q := by
  obtain ⟨i, q, kv, -, -, hrd⟩ := h.data d hd
  exact ⟨i, q, hrd⟩

theorem Position.loose {p : Option ℕ} (ht : Position index groups RI RD t p) :
    Loose index RD t ∧ ∃ q, RI t.index q := by
  cases p with
  | none => exact ⟨Closed.loose ht, _, Closed.place ht⟩
  | some n =>
    obtain ⟨i, j, ho, -⟩ := ht
    exact ⟨ho.loose, _, ho.place⟩

namespace Indexes

variable (h : L.Indexes below index groups RI RD indexFailed failed)
include h

theorem index_sticky (s : σ) (m : Move Bytes) (hs : indexFailed s) : indexFailed (L.index.move m s) :=
  h.index_follows.sticky m hs

theorem group (hi : i < index.length) : ∃ g, groups[i]? = some g :=
  ⟨_, List.getElem?_eq_getElem (h.length ▸ hi)⟩

/-- Nothing is wrong with an iterator that follows its group. -/
theorem saveError (hd : ∀ d, t.data = some d → ∃ i q, RD i d q) : L.saveError t = t := by
  rw [TwoLevels.saveError]
  cases hdata : t.data with
  | none => rfl
  | some d =>
    obtain ⟨i, q, hrd⟩ := hd d hdata
    simp [h.data_status i d q hrd]

theorem setDataIterator (hd : ∀ d, t.data = some d → ∃ i q, RD i d q) (data : Option τ) :
    L.setDataIterator data t = { t with data := data, visited := t.visited ++ data.toList } := by
  rw [TwoLevels.setDataIterator, h.saveError hd]

/-- **Repositioning**: the data iterator is that of the index iterator's group, new or
    still open, and moved, unless something failed. -/
theorem reposition (hl : Loose index RD t) {m m' : Move Bytes} {p : Option ℕ} {f : ℕ → Option ℕ}
    (hp : RI (L.index.move m t.index) p)
    (hmove : ∀ i, p = some i → ∀ d q, RD i d q → RD i (L.data.move m' d) (f i) ∨ failed (L.data.move m' d))
    (hmet : ¬ Met indexFailed failed (L.reposition (L.index.move m) (L.data.move m') t)) :
    Leads index RI RD (L.reposition (L.index.move m) (L.data.move m') t) p f := by
  unfold TwoLevels.reposition TwoLevels.initDataBlock at hmet ⊢
  cases p with
  | none =>
    rw [h.index_follows.current_none hp]
    simp only
    rw [h.setDataIterator (by exact hl.follows)]
    exact ⟨hp, rfl, hl.status⟩
  | some i =>
    obtain ⟨hi, hcur⟩ := h.index_follows.current_some hp
    have hget : index[i]? = some index[i] := List.getElem?_eq_getElem hi
    rw [hcur] at hmet ⊢
    simp only at hmet ⊢
    split_ifs at hmet ⊢ with hsame
    · -- the block is open already
      obtain ⟨d, hd⟩ := Option.isSome_iff_exists.mp hsame.1
      obtain ⟨j, q, kv, hkv, hhandle, hrd⟩ := hl.data d hd
      have hrd' := h.handles j i kv _ hkv hget (hhandle.symm.trans hsame.2.symm) d q hrd
      have hdata : t.data.map (L.data.move m') = some (L.data.move m' d) := by rw [hd]; rfl
      have hmoved := (hmove i rfl d q hrd').resolve_right fun hf => hmet (Or.inr ⟨_, by
        show _ ∈ t.visited ++ (t.data.map (L.data.move m')).toList
        rw [hdata]
        exact List.mem_append_right _ (List.mem_singleton_self _), hf⟩)
      exact ⟨hp, ⟨_, hdata, hmoved⟩, ⟨_, hget, hsame.2.symm⟩, hl.status⟩
    · rw [h.setDataIterator (by exact hl.follows)] at hmet ⊢
      have hopen := (h.opened i _ hget).resolve_right fun hf => hmet (Or.inr ⟨_,
        List.mem_append_left _ (List.mem_append_right _ (List.mem_singleton_self _)), hf⟩)
      have hmoved := (hmove i rfl _ none hopen).resolve_right fun hf => hmet (Or.inr ⟨_,
        List.mem_append_right _ (List.mem_singleton_self _), hf⟩)
      exact ⟨hp, ⟨_, rfl, hmoved⟩, ⟨_, hget, rfl⟩, hl.status⟩

theorem current_opened (ho : Opened index RI RD t i q) :
    ∃ g, groups[i]? = some g ∧ L.current t = q.bind fun j => g[j]? := by
  obtain ⟨d, hd, hrd⟩ := ho.data
  obtain ⟨g, hg⟩ := h.group (h.index_follows.bound ho.place)
  refine ⟨g, hg, ?_⟩
  rw [TwoLevels.current, hd]
  exact (h.data_follows i g hg).current hrd

/-! ### Skipping -/

/-- A group's entry ends the skipping. -/
theorem skip_valid (ho : Opened index RI RD t i (some j)) (moveIndex : σ → σ) (f : τ → τ)
    (turns : ℕ) : L.skipEmptyBlocks moveIndex f turns t = t := by
  cases turns with
  | zero => rfl
  | succ turns =>
    obtain ⟨d, hd, hrd⟩ := ho.data
    obtain ⟨g, hg⟩ := h.group (h.index_follows.bound ho.place)
    obtain ⟨_, hcur⟩ := (h.data_follows i g hg).current_some hrd
    rw [TwoLevels.skipEmptyBlocks, if_pos]
    rw [TwoLevels.current, hd, Option.bind_some, hcur]
    rfl

theorem skip_closed (hc : Closed RI t) (moveIndex : σ → σ) (f : τ → τ) (turns : ℕ) :
    Closed RI (L.skipEmptyBlocks moveIndex f turns t) := by
  cases turns with
  | zero => exact hc
  | succ turns =>
    rw [TwoLevels.skipEmptyBlocks, if_neg (by rw [TwoLevels.current, hc.data]; simp)]
    have hfollows := (hc.loose : Loose index RD t).follows
    simp only
    rw [h.saveError hfollows, h.index_follows.current_none hc.place, if_pos Option.isNone_none,
      h.setDataIterator hfollows]
    exact ⟨hc.place, rfl, hc.status⟩

/-- A group that is used up: one turn leads on. -/
theorem skip_ended (ho : Opened index RI RD t i none) (moveIndex : σ → σ) (f : τ → τ) (turns : ℕ) :
    L.skipEmptyBlocks moveIndex f (turns + 1) t =
      L.skipEmptyBlocks moveIndex f turns (L.reposition moveIndex f t) := by
  obtain ⟨g, -, hcur⟩ := h.current_opened ho
  obtain ⟨_, hindex⟩ := h.index_follows.current_some ho.place
  rw [TwoLevels.skipEmptyBlocks, if_neg (by rw [hcur]; simp)]
  simp only
  rw [h.saveError ho.loose.follows, hindex, if_neg (by simp)]

/-- The index iterator's move, if it does not fail. -/
theorem index_move {m : Move Bytes} {p : Option ℕ} (hp : RI t.index p) (hm : m.Allowed (p.isSome = true))
    {f : τ → τ} (hmet : ¬ Met indexFailed failed (L.reposition (L.index.move m) f t)) :
    RI (L.index.move m t.index) ((posCursor below index).move m p) := by
  refine (h.index_follows.step m hp hm).resolve_right fun hf => hmet ?_
  exact Met.moveData (Met.initDataBlock (Or.inl hf)) f

theorem seekToFirst_data {p : Option ℕ} (hp : ∀ i, p = some i → i < index.length) :
    ∀ i, p = some i → ∀ d q, RD i d q →
      RD i (L.data.move .seekToFirst d) (posOf (groups.getD i []) 0) ∨
        failed (L.data.move .seekToFirst d) := by
  intro i hi d q hrd
  obtain ⟨g, hg⟩ := h.group (hp i hi)
  rw [List.getD_eq_getElem?_getD, hg]
  exact (h.data_follows i g hg).step .seekToFirst hrd trivial

theorem seekToLast_data {p : Option ℕ} (hp : ∀ i, p = some i → i < index.length) :
    ∀ i, p = some i → ∀ d q, RD i d q →
      RD i (L.data.move .seekToLast d) (lastPos (groups.getD i [])) ∨
        failed (L.data.move .seekToLast d) := by
  intro i hi d q hrd
  obtain ⟨g, hg⟩ := h.group (hp i hi)
  rw [List.getD_eq_getElem?_getD, hg]
  exact (h.data_follows i g hg).step .seekToLast hrd trivial

omit h in
theorem posOf_lt {l : List KeyValue} {i j : ℕ} (hj : posOf l i = some j) : j < l.length := by
  unfold posOf at hj
  split_ifs at hj with hlt
  rwa [← Option.some.inj hj]

/-- **Past the end of group `i`**: the first entry of the later groups. -/
theorem skipForward :
    ∀ {turns i : ℕ} {t : TwoLevelIterator σ τ}, Opened index RI RD t i none → index.length ≤ turns + i →
      ¬ Met indexFailed failed (L.skipEmptyBlocks L.index.next L.data.seekToFirst turns t) →
      Position index groups RI RD (L.skipEmptyBlocks L.index.next L.data.seekToFirst turns t)
        (posOf groups.flatten (offsetAt groups (i + 1))) := by
  intro turns
  induction turns with
  | zero =>
    intro i t ho hturns _
    have := h.index_follows.bound ho.place
    omega
  | succ turns ih =>
    intro i t ho hturns hmet
    have hlen := h.length
    have hbound := h.index_follows.bound ho.place
    rw [h.skip_ended ho] at hmet ⊢
    have hmet' : ¬ Met indexFailed failed (L.reposition (L.index.move .next) (L.data.move .seekToFirst) t) :=
      fun hm => hmet (Met.skipEmptyBlocks h.index_sticky .next _ _ hm)
    have hp : RI (L.index.move .next t.index) (posOf index (i + 1)) := h.index_move ho.place rfl hmet'
    have hlead := h.reposition ho.loose hp (h.seekToFirst_data fun _ => posOf_lt) hmet'
    by_cases hi : i + 1 < index.length
    · rw [posOf_of_lt hi] at hlead
      have hopened : Opened index RI RD _ (i + 1) (posOf (groups.getD (i + 1) []) 0) := hlead
      have hlt : i + 1 < groups.length := hlen ▸ hi
      have hgetD : groups.getD (i + 1) [] = groups[i + 1] := by
        rw [List.getD_eq_getElem?_getD, List.getElem?_eq_getElem hlt]
        rfl
      have hsucc := Lib.offsetAt_succ hlt
      rw [hgetD] at hopened
      by_cases hne : 0 < groups[i + 1].length
      · rw [posOf_of_lt hne] at hopened
        have hle := Lib.offsetAt_le_length groups (i + 1 + 1)
        have hskip := h.skip_valid hopened L.index.next L.data.seekToFirst turns
        rw [posOf_of_lt (by omega)]
        exact ⟨i + 1, 0, by rw [show L.skipEmptyBlocks _ _ turns (L.reposition L.index.next
          L.data.seekToFirst t) = _ from hskip]; exact hopened, rfl⟩
      · rw [posOf_of_le (by omega)] at hopened
        rw [show offsetAt groups (i + 1) = offsetAt groups (i + 1 + 1) by omega]
        exact ih hopened (by omega) hmet
    · rw [posOf_of_le (by omega)] at hlead
      rw [posOf_of_le (by rw [show i + 1 = groups.length by omega, Lib.offsetAt_length])]
      exact h.skip_closed hlead _ _ _

/-- **Before the start of group `i`**: the last entry of the earlier groups. -/
theorem skipBackward :
    ∀ {turns i : ℕ} {t : TwoLevelIterator σ τ}, Opened index RI RD t i none → i < turns →
      ¬ Met indexFailed failed (L.skipEmptyBlocks L.index.prev L.data.seekToLast turns t) →
      Position index groups RI RD (L.skipEmptyBlocks L.index.prev L.data.seekToLast turns t)
        (posBefore (offsetAt groups i)) := by
  intro turns
  induction turns with
  | zero =>
    intro i t _ hturns
    omega
  | succ turns ih =>
    intro i t ho hturns hmet
    have hbound := h.index_follows.bound ho.place
    rw [h.skip_ended ho] at hmet ⊢
    have hmet' : ¬ Met indexFailed failed (L.reposition (L.index.move .prev) (L.data.move .seekToLast) t) :=
      fun hm => hmet (Met.skipEmptyBlocks h.index_sticky .prev _ _ hm)
    have hp : RI (L.index.move .prev t.index) (posBefore i) := h.index_move ho.place rfl hmet'
    have hlead := h.reposition ho.loose hp (h.seekToLast_data fun j hj => by
      unfold posBefore at hj
      split_ifs at hj
      have := Option.some.inj hj
      omega) hmet'
    cases i with
    | zero =>
      rw [Lib.offsetAt_zero]
      exact h.skip_closed hlead _ _ _
    | succ i =>
      have hopened : Opened index RI RD _ i (lastPos (groups.getD i [])) := hlead
      have hlt : i < groups.length := by have := h.length; omega
      have hgetD : groups.getD i [] = groups[i] := by
        rw [List.getD_eq_getElem?_getD, List.getElem?_eq_getElem hlt]
        rfl
      have hsucc := Lib.offsetAt_succ hlt
      rw [hgetD, Lib.lastPos_eq, posBefore] at hopened
      by_cases hne : groups[i].length = 0
      · rw [if_pos hne] at hopened
        rw [show offsetAt groups (i + 1) = offsetAt groups i by omega]
        exact ih hopened (by omega) hmet
      · rw [if_neg hne] at hopened
        have hskip := h.skip_valid hopened L.index.prev L.data.seekToLast turns
        rw [posBefore, if_neg (by omega)]
        exact ⟨i, _, by rw [show L.skipEmptyBlocks _ _ turns (L.reposition L.index.prev
          L.data.seekToLast t) = _ from hskip]; exact hopened, by omega⟩

/-- Entry `j` of group `i`, or past its end. -/
theorem forward_of_posOf {g : List KeyValue} (hg : groups[i]? = some g) (hj : j ≤ g.length)
    (ho : Opened index RI RD t i (posOf g j))
    (hmet : ¬ Met indexFailed failed (L.skipEmptyBlocksForward t)) :
    Position index groups RI RD (L.skipEmptyBlocksForward t)
      (posOf groups.flatten (offsetAt groups i + j)) := by
  obtain ⟨hi, rfl⟩ := List.getElem?_eq_some_iff.mp hg
  have hsucc := Lib.offsetAt_succ hi
  by_cases hlt : j < groups[i].length
  · rw [posOf_of_lt hlt] at ho
    have hle := Lib.offsetAt_le_length groups (i + 1)
    rw [skipEmptyBlocksForward, h.skip_valid ho, posOf_of_lt (by omega)]
    exact ⟨i, j, ho, rfl⟩
  · rw [posOf_of_le (by omega)] at ho
    rw [show offsetAt groups i + j = offsetAt groups (i + 1) by omega]
    exact h.skipForward ho (by have := h.turns; omega) hmet

/-- The last entry of group `i` before its entry `j`, or of the groups before. -/
theorem backward_of_posBefore (ho : Opened index RI RD t i (posBefore j))
    (hmet : ¬ Met indexFailed failed (L.skipEmptyBlocksBackward t)) :
    Position index groups RI RD (L.skipEmptyBlocksBackward t) (posBefore (offsetAt groups i + j)) := by
  have hbound := h.index_follows.bound ho.place
  cases j with
  | zero => exact h.skipBackward ho (by have := h.turns; omega) hmet
  | succ j =>
    have hvalid : Opened index RI RD t i (some j) := ho
    rw [skipEmptyBlocksBackward, h.skip_valid hvalid]
    exact ⟨i, j, hvalid, rfl⟩

/-- Where a seek leads in the concatenation: to the group whose separator it finds, or to
    the ones after it. -/
theorem findIdx_flatten (k : Bytes) (hi : (index.findIdx fun e => !below k e) = i) {g : List KeyValue}
    (hg : groups[i]? = some g) :
    groups.flatten.findIdx (fun e => !below k e) = offsetAt groups i + g.findIdx fun e => !below k e := by
  obtain ⟨hlt, hget⟩ := List.getElem?_eq_some_iff.mp hg
  have hi' : i < index.length := h.length ▸ hlt
  have hsep : below k index[i] = false := by
    have := @List.findIdx_getElem _ (fun e => !below k e) index (hi.symm ▸ hi')
    simpa [hi] using this
  have hbefore : ∀ g' ∈ groups.take i, ∀ e ∈ g', (!below k e) = false := by
    intro g' hg' e he
    obtain ⟨j, hj, rfl⟩ := List.mem_iff_getElem.mp hg'
    rw [List.length_take] at hj
    have hbelow : below k (index[j]) = true := by
      simpa using List.not_of_lt_findIdx (show j < index.findIdx fun e => !below k e by omega)
    rw [List.getElem_take] at he
    rw [h.before j _ _ (List.getElem?_eq_getElem (by omega)) (List.getElem?_eq_getElem (by omega)) k
      hbelow e he]
    rfl
  have hrest : (groups.drop i).flatten.findIdx (fun e => !below k e) =
      g.findIdx (fun e => !below k e) := by
    rw [List.drop_eq_getElem_cons hlt, List.flatten_cons, hget, List.findIdx_append]
    split_ifs with hfound
    · rfl
    · have hall : g.findIdx (fun e => !below k e) = g.length :=
        le_antisymm List.findIdx_le_length (not_lt.mp hfound)
      have hlater : ∀ e ∈ (groups.drop (i + 1)).flatten, below k e = false := by
        intro e he
        obtain ⟨g', hg', heg⟩ := List.mem_flatten.mp he
        obtain ⟨j, hj, rfl⟩ := List.mem_iff_getElem.mp hg'
        rw [List.getElem_drop] at heg
        rw [List.length_drop] at hj
        exact h.after i (i + 1 + j) _ _ (by omega) (List.getElem?_eq_getElem hi')
          (List.getElem?_eq_getElem (by omega)) k hsep e heg
      have hzero : ((groups.drop (i + 1)).flatten.findIdx fun e => !below k e) = 0 := by
        cases hnext : (groups.drop (i + 1)).flatten with
        | nil => rfl
        | cons e es =>
          rw [hnext] at hlater
          simp [List.findIdx_cons, hlater e List.mem_cons_self]
      rw [hzero, hall, Nat.zero_add]
  rw [Lib.findIdx_flatten hbefore, hrest]

/-! ### Moves -/

theorem move_seekToFirst {p : Option ℕ} (ht : Position index groups RI RD t p)
    (hmet : ¬ Met indexFailed failed (L.twoLevelCursor.move .seekToFirst t)) :
    Position index groups RI RD (L.twoLevelCursor.move .seekToFirst t) (posOf groups.flatten 0) := by
  obtain ⟨hl, q, hq⟩ := Position.loose ht
  have hmet' : ¬ Met indexFailed failed
      (L.reposition (L.index.move .seekToFirst) (L.data.move .seekToFirst) t) :=
    fun hm => hmet (Met.skipEmptyBlocks h.index_sticky .next _ _ hm)
  have hp : RI (L.index.move .seekToFirst t.index) (posOf index 0) := h.index_move hq trivial hmet'
  have hlead := h.reposition hl hp (h.seekToFirst_data fun _ => posOf_lt) hmet'
  by_cases hpos : 0 < groups.length
  · rw [posOf_of_lt (h.length ▸ hpos)] at hlead
    obtain ⟨g, hg⟩ := h.group (h.length ▸ hpos : 0 < index.length)
    have hopened : Opened index RI RD _ 0 (posOf (groups.getD 0 []) 0) := hlead
    rw [List.getD_eq_getElem?_getD, hg] at hopened
    exact h.forward_of_posOf hg (Nat.zero_le _) hopened hmet
  · have hnil : groups = [] := List.length_eq_zero_iff.mp (by omega)
    rw [posOf_of_le (by rw [h.length]; omega)] at hlead
    rw [posOf_of_le (by rw [hnil]; rfl)]
    exact h.skip_closed hlead _ _ _

theorem move_seekToLast {p : Option ℕ} (ht : Position index groups RI RD t p)
    (hmet : ¬ Met indexFailed failed (L.twoLevelCursor.move .seekToLast t)) :
    Position index groups RI RD (L.twoLevelCursor.move .seekToLast t) (lastPos groups.flatten) := by
  obtain ⟨hl, q, hq⟩ := Position.loose ht
  have hlen := h.length
  have hmet' : ¬ Met indexFailed failed
      (L.reposition (L.index.move .seekToLast) (L.data.move .seekToLast) t) :=
    fun hm => hmet (Met.skipEmptyBlocks h.index_sticky .prev _ _ hm)
  have hp : RI (L.index.move .seekToLast t.index) (lastPos index) := h.index_move hq trivial hmet'
  rw [Lib.lastPos_eq, posBefore] at hp
  have hlead := h.reposition hl hp (h.seekToLast_data fun j hj => by
    split_ifs at hj
    have := Option.some.inj hj
    omega) hmet'
  rw [Lib.lastPos_eq]
  by_cases hnil : index.length = 0
  · have hgroups : groups = [] := List.length_eq_zero_iff.mp (by omega)
    rw [if_pos hnil] at hlead
    rw [hgroups]
    exact h.skip_closed hlead _ _ _
  · rw [if_neg hnil] at hlead
    obtain ⟨g, hg⟩ := h.group (by omega : index.length - 1 < index.length)
    have hopened : Opened index RI RD _ (index.length - 1)
        (lastPos (groups.getD (index.length - 1) [])) := hlead
    rw [List.getD_eq_getElem?_getD, hg, Option.getD_some, Lib.lastPos_eq] at hopened
    have hend : groups.flatten.length = offsetAt groups (index.length - 1) + g.length := by
      obtain ⟨hlt, hget⟩ := List.getElem?_eq_some_iff.mp hg
      have hsucc := Lib.offsetAt_succ hlt
      rw [hget, Nat.sub_add_cancel (by omega)] at hsucc
      rw [← hsucc, hlen, Lib.offsetAt_length]
    rw [hend]
    exact h.backward_of_posBefore hopened hmet

theorem move_seek {p : Option ℕ} (ht : Position index groups RI RD t p) (k : Bytes)
    (hmet : ¬ Met indexFailed failed (L.twoLevelCursor.move (.seek k) t)) :
    Position index groups RI RD (L.twoLevelCursor.move (.seek k) t)
      (posOf groups.flatten (groups.flatten.findIdx fun e => !below k e)) := by
  obtain ⟨hl, q, hq⟩ := Position.loose ht
  have hmet' : ¬ Met indexFailed failed (L.reposition (L.index.move (.seek k)) (L.data.move (.seek k)) t) :=
    fun hm => hmet (Met.skipEmptyBlocks h.index_sticky .next _ _ hm)
  have hp : RI (L.index.move (.seek k) t.index) (posOf index (index.findIdx fun e => !below k e)) :=
    h.index_move hq trivial hmet'
  by_cases hlt : (index.findIdx fun e => !below k e) < index.length
  · obtain ⟨g, hg⟩ := h.group hlt
    rw [posOf_of_lt hlt] at hp
    have hlead := h.reposition (f := fun _ => posOf g (g.findIdx fun e => !below k e)) hl hp
      (fun i hi d q hrd => by
        rw [← Option.some.inj hi] at hrd ⊢
        exact (h.data_follows _ g hg).step (.seek k) hrd trivial) hmet'
    rw [h.findIdx_flatten k rfl hg]
    exact h.forward_of_posOf hg List.findIdx_le_length hlead hmet
  · rw [posOf_of_le (not_lt.mp hlt)] at hp
    have hlead := h.reposition (f := fun _ => none) hl hp (fun i hi => nomatch hi) hmet'
    -- every separator is below the key, so every entry is
    have hall : (groups.flatten.findIdx fun e => !below k e) = groups.flatten.length := by
      refine List.findIdx_eq_length.mpr fun e he => ?_
      obtain ⟨g, hg, heg⟩ := List.mem_flatten.mp he
      obtain ⟨i, hi, rfl⟩ := List.mem_iff_getElem.mp hg
      have hi' : i < index.length := h.length ▸ hi
      have hbelow : below k (index[i]) = true := by
        simpa using List.not_of_lt_findIdx (show i < index.findIdx fun e => !below k e by omega)
      rw [h.before i _ _ (List.getElem?_eq_getElem hi') (List.getElem?_eq_getElem hi) k hbelow e heg]
      rfl
    rw [hall, posOf_of_le le_rfl]
    exact h.skip_closed hlead _ _ _

/-- The data iterator of the open group moves. -/
theorem moveData (ho : Opened index RI RD t i q) {m : Move Bytes} {g : List KeyValue}
    (hg : groups[i]? = some g) (hm : m.Allowed (q.isSome = true))
    (hmet : ¬ Met indexFailed failed (TwoLevels.moveData (L.data.move m) t)) :
    Opened index RI RD (TwoLevels.moveData (L.data.move m) t) i ((posCursor below g).move m q) := by
  obtain ⟨d, hd, hrd⟩ := ho.data
  have hdata : t.data.map (L.data.move m) = some (L.data.move m d) := by rw [hd]; rfl
  have hmoved := ((h.data_follows i g hg).step m hrd hm).resolve_right fun hf => hmet (Or.inr ⟨_, by
    show _ ∈ t.visited ++ (t.data.map (L.data.move m)).toList
    rw [hdata]
    exact List.mem_append_right _ (List.mem_singleton_self _), hf⟩)
  exact ⟨ho.place, ⟨_, hdata, hmoved⟩, ho.handle, ho.status⟩

theorem move_next {n : ℕ} (ht : Position index groups RI RD t (some n))
    (hmet : ¬ Met indexFailed failed (L.twoLevelCursor.move .next t)) :
    Position index groups RI RD (L.twoLevelCursor.move .next t) (posOf groups.flatten (n + 1)) := by
  obtain ⟨i, j, ho, rfl⟩ := ht
  obtain ⟨g, hg⟩ := h.group (h.index_follows.bound ho.place)
  obtain ⟨d, -, hrd⟩ := ho.data
  have hj := (h.data_follows i g hg).bound hrd
  have hmoved := h.moveData (m := .next) ho hg rfl
    fun hm => hmet (Met.skipEmptyBlocks h.index_sticky .next _ _ hm)
  rw [Nat.add_assoc]
  exact h.forward_of_posOf hg hj hmoved hmet

theorem move_prev {n : ℕ} (ht : Position index groups RI RD t (some n))
    (hmet : ¬ Met indexFailed failed (L.twoLevelCursor.move .prev t)) :
    Position index groups RI RD (L.twoLevelCursor.move .prev t) (posBefore n) := by
  obtain ⟨i, j, ho, rfl⟩ := ht
  obtain ⟨g, hg⟩ := h.group (h.index_follows.bound ho.place)
  have hmoved := h.moveData (m := .prev) ho hg rfl
    fun hm => hmet (Met.skipEmptyBlocks h.index_sticky .prev _ _ hm)
  exact h.backward_of_posBefore hmoved hmet

/-- **A failure is reported** by every state that may be reached. -/
theorem reported (hr : Reported indexFailed failed t) : L.status t ≠ .ok := by
  unfold TwoLevels.status
  split_ifs with hi
  · exact hi
  · rcases hr with hf | hs | ⟨d, hd, hf⟩
    · exact absurd (h.index_failed _ hf) hi
    · split
      · exact hs
      · split_ifs with hd
        · exact hd
        · exact hs
    · rw [hd]
      simp only
      rw [if_pos (h.data_failed d hf)]
      exact h.data_failed d hf

/-- Nothing is wrong with the iterator at any of its positions. -/
theorem status_ok {p : Option ℕ} (ht : Position index groups RI RD t p) : L.status t = .ok := by
  obtain ⟨hl, q, hq⟩ := Position.loose ht
  rw [TwoLevels.status, h.index_status _ _ hq, if_neg (not_not.mpr rfl)]
  cases hd : t.data with
  | none => exact hl.status
  | some d =>
    obtain ⟨i, q, hrd⟩ := hl.follows d hd
    simp only
    rw [h.data_status i d q hrd, if_neg (not_not.mpr rfl)]
    exact hl.status

/-- **The two-level iterator follows the concatenation of its groups** until something
    fails, and then reports it. -/
theorem followsUnless : FollowsUnless L.twoLevelCursor below groups.flatten
    (fun t p => Position index groups RI RD t p ∧ ¬ Met indexFailed failed t)
    (fun t => Met indexFailed failed t ∧ Reported indexFailed failed t) where
  current := by
    rintro t p ⟨ht, -⟩
    cases p with
    | none =>
      show L.current t = none
      rw [TwoLevels.current, Closed.data ht]
      rfl
    | some n =>
      obtain ⟨i, j, ho, rfl⟩ := ht
      obtain ⟨g, hg, hcur⟩ := h.current_opened ho
      obtain ⟨hi, rfl⟩ := List.getElem?_eq_some_iff.mp hg
      obtain ⟨d, -, hrd⟩ := ho.data
      have hj := (h.data_follows i _ hg).bound hrd
      show L.current t = groups.flatten[offsetAt groups i + j]?
      rw [hcur, Lib.getElem?_flatten hi hj]
      exact List.getElem?_eq_getElem hj
  bound := by
    rintro t n ⟨⟨i, j, ho, rfl⟩, -⟩
    obtain ⟨g, hg⟩ := h.group (h.index_follows.bound ho.place)
    obtain ⟨hi, rfl⟩ := List.getElem?_eq_some_iff.mp hg
    obtain ⟨d, -, hrd⟩ := ho.data
    have hj := (h.data_follows i _ hg).bound hrd
    have hle := Lib.offsetAt_le_length groups (i + 1)
    have hsucc := Lib.offsetAt_succ hi
    omega
  step := by
    rintro t p m ⟨ht, hmet⟩ hm
    by_cases hmet' : Met indexFailed failed (L.twoLevelCursor.move m t)
    · exact Or.inr ⟨hmet', Honest.move h.data_failed h.index_sticky h.data_sticky m
        (fun hm => absurd hm hmet) hmet'⟩
    · refine Or.inl ⟨?_, hmet'⟩
      cases m with
      | seekToFirst => exact h.move_seekToFirst ht hmet'
      | seekToLast => exact h.move_seekToLast ht hmet'
      | seek k => exact h.move_seek ht k hmet'
      | next =>
        obtain ⟨n, rfl⟩ := Option.isSome_iff_exists.mp hm
        exact h.move_next ht hmet'
      | prev =>
        obtain ⟨n, rfl⟩ := Option.isSome_iff_exists.mp hm
        exact h.move_prev ht hmet'
  sticky := by
    rintro t m ⟨hmet, hr⟩
    have hmet' := hmet.move h.index_sticky m
    exact ⟨hmet', Honest.move h.data_failed h.index_sticky h.data_sticky m (fun _ => hr) hmet'⟩

omit h in
/-- A new iterator. -/
theorem new {s : σ} (hs : RI s none) (hnot : ¬ indexFailed s) :
    Position index groups RI RD (TwoLevels.new s) none ∧ ¬ Met indexFailed failed
      (TwoLevels.new s : TwoLevelIterator σ τ) := by
  refine ⟨⟨hs, rfl, rfl⟩, ?_⟩
  rintro (hf | ⟨d, hd, -⟩)
  · exact hnot hf
  · exact absurd hd List.not_mem_nil

end Indexes

end TwoLevels

end Ambar
