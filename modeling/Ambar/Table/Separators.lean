import Ambar.Table.Comparator
import Ambar.Table.TwoLevel

/-!
# Blocks behind separators

A two-level iterator over an index of separator keys, in the order of a comparator,
where blocks may be empty and opening or reading them may fail.

* `TwoLevels.Separates`: the index, its blocks, and what their iterators do.
* `TwoLevels.twoLevelIterator_over_blocks`: what a sequence of calls leads to.
-/

namespace Ambar

open Lib (Cursor FollowsUnless Move posCursor posOf posBefore)

namespace TwoLevels

variable {σ τ : Type} {L : TwoLevels σ τ} {index : List KeyValue} {RI : σ → Option ℕ → Prop}
  {t : TwoLevelIterator σ τ} {i j : ℕ}

/-- The entries before a key. -/
def belowKey {κ : Type} [LinearOrder κ] (c : Comparator κ) (target : Bytes) (kv : KeyValue) : Bool :=
  c.less kv.1 target

/-- An index of strictly increasing separators, each before the keys of the later blocks
    and not before those of its own. Opening a block or reading it may fail, and an
    iterator that has failed stays so. -/
structure Separates {κ : Type} [LinearOrder κ] (L : TwoLevels σ τ) (c : Comparator κ)
    (index : List KeyValue) (block : Bytes → List KeyValue) (RI : σ → Option ℕ → Prop)
    (RD : Bytes → τ → Option ℕ → Prop) : Prop where
  turns : index.length ≤ L.turns
  sorted : index.Pairwise fun x y => c.rank x.1 < c.rank y.1
  at_most : ∀ kv ∈ index, ∀ e ∈ block kv.2, c.rank e.1 ≤ c.rank kv.1
  above : ∀ (i : ℕ) (kv kv' : KeyValue), index[i]? = some kv → index[i + 1]? = some kv' →
    ∀ e ∈ block kv'.2, c.rank kv.1 < c.rank e.1
  index_follows : Lib.Follows L.index (belowKey c) index RI
  index_status : ∀ s p, RI s p → L.indexStatus s = .ok
  data_follows : ∀ kv ∈ index,
    FollowsUnless L.data (belowKey c) (block kv.2) (RD kv.2) fun d => L.dataStatus d ≠ .ok
  data_status : ∀ v d q, RD v d q → L.dataStatus d = .ok
  data_sticky : ∀ d m, L.dataStatus d ≠ .ok → L.dataStatus (L.data.move m d) ≠ .ok
  opened : ∀ kv ∈ index, RD kv.2 (L.function kv.2) none ∨ L.dataStatus (L.function kv.2) ≠ .ok

/-- Where the index iterator is past an end, no block is open. -/
def Placed (RI : σ → Option ℕ → Prop) (t : TwoLevelIterator σ τ) (q : Option ℕ) : Prop :=
  RI t.index q ∧ (q = none → t.data = none)

theorem Placed.moveData {p : Option ℕ} (ht : Placed RI t p) (f : τ → τ) :
    Placed RI (TwoLevels.moveData f t) p :=
  ⟨ht.1, fun hp => by show t.data.map f = none; rw [ht.2 hp]; rfl⟩

namespace Separates

variable {κ : Type} [LinearOrder κ] {c : Comparator κ} {block : Bytes → List KeyValue}
  {RH : Bytes → τ → Option ℕ → Prop} (h : L.Separates c index block RI RH)
include h

theorem rank_lt {kv kv' : KeyValue} (hij : i < j) (hi : index[i]? = some kv) (hj : index[j]? = some kv')
    {e : KeyValue} (he : e ∈ block kv'.2) : c.rank kv.1 < c.rank e.1 := by
  obtain ⟨m, rfl⟩ : ∃ m, j = m + 1 := ⟨j - 1, by omega⟩
  have hm : m < index.length := by
    have := (List.getElem?_eq_some_iff.mp hj).1
    omega
  have habove := h.above m _ kv' (List.getElem?_eq_getElem hm) hj e he
  rcases Nat.lt_or_ge i m with him | him
  · have hlt := List.pairwise_iff_getElem.mp h.sorted i m (by omega) hm him
    rw [(List.getElem?_eq_some_iff.mp hi).2] at hlt
    exact hlt.trans habove
  · obtain rfl : i = m := by omega
    rwa [(List.getElem?_eq_some_iff.mp hi).2] at habove

/-- The separators index the blocks. -/
theorem indexes : L.Indexes (belowKey c) index (index.map fun kv => block kv.2) RI
    (fun i d q => ∃ kv, index[i]? = some kv ∧ RH kv.2 d q) (fun _ => False)
    fun d => L.dataStatus d ≠ .ok where
  turns := h.turns
  length := by rw [List.length_map]
  index_follows := h.index_follows.unless
  index_status := h.index_status
  index_failed := fun _ hf => hf.elim
  data_follows := by
    intro i g hg
    rw [List.getElem?_map, Option.map_eq_some_iff] at hg
    obtain ⟨kv, hkv, rfl⟩ := hg
    have hfollows := h.data_follows kv (List.mem_of_getElem? hkv)
    -- the handle of the block is that of the index entry
    have hRD : (fun d q => ∃ kv', index[i]? = some kv' ∧ RH kv'.2 d q) = RH kv.2 := by
      funext d q
      rw [hkv]
      simp
    rw [hRD]
    exact hfollows
  data_status := fun _ d q ⟨kv, _, hrd⟩ => h.data_status kv.2 d q hrd
  data_failed := fun _ hf => hf
  data_sticky := h.data_sticky
  opened := fun i kv hkv => (h.opened kv (List.mem_of_getElem? hkv)).imp_left fun hrd => ⟨kv, hkv, hrd⟩
  handles := by
    rintro i j kv kv' hi hj heq d q ⟨kv'', hi', hrd⟩
    obtain rfl : kv = kv'' := Option.some.inj (hi.symm.trans hi')
    exact ⟨kv', hj, heq ▸ hrd⟩
  before := by
    intro i kv g hi hg k hk e he
    rw [List.getElem?_map, hi] at hg
    obtain rfl := Option.some.inj hg
    have hle := h.at_most kv (List.mem_of_getElem? hi) e he
    exact decide_eq_true (hle.trans_lt (of_decide_eq_true hk))
  after := by
    intro i j kv g hij hi hg k hk e he
    rw [List.getElem?_map, Option.map_eq_some_iff] at hg
    obtain ⟨kv', hj, rfl⟩ := hg
    have hlt := h.rank_lt hij hi hj he
    exact decide_eq_false (not_lt.mpr ((not_lt.mp (of_decide_eq_false hk)).trans hlt.le))

/-! ### The loops end -/

omit h in
theorem index_saveError (t : TwoLevelIterator σ τ) : (L.saveError t).index = t.index := by
  unfold TwoLevels.saveError
  split
  · rfl
  · split_ifs <;> rfl

theorem placed_reposition (m m' : Move Bytes) {p : Option ℕ} (hp : RI t.index p)
    (hm : m.Allowed (p.isSome = true)) :
    Placed RI (L.reposition (L.index.move m) (L.data.move m') t) ((posCursor (belowKey c) index).move m p) := by
  have hmove : RI (L.index.move m t.index) ((posCursor (belowKey c) index).move m p) :=
    (h.index_follows.unless.step m hp hm).resolve_right id
  unfold TwoLevels.reposition TwoLevels.initDataBlock
  cases hq : (posCursor (belowKey c) index).move m p with
  | none =>
    rw [hq] at hmove
    rw [h.index_follows.current_none hmove]
    exact ⟨(index_saveError _).symm ▸ hmove, fun _ => rfl⟩
  | some i =>
    rw [hq] at hmove
    obtain ⟨_, hcur⟩ := h.index_follows.current_some hmove
    refine ⟨?_, fun hn => nomatch hn⟩
    rw [hcur]
    simp only
    split_ifs
    · exact hmove
    · exact (index_saveError { t with index := L.index.move m t.index, dataBlockHandle := _ }).symm ▸ hmove

/-- A loop whose index iterator has at most `turns` places to go ends at an entry, or with
    no block open. -/
theorem skip_ends (m m' : Move Bytes) (remaining : ℕ → ℕ)
    (hm : ∀ i < index.length, m.Allowed ((some i).isSome = true) ∧ 0 < remaining i ∧
      ∀ j, (posCursor (belowKey c) index).move m (some i) = some j → remaining j < remaining i) :
    ∀ {turns : ℕ} {t : TwoLevelIterator σ τ} {p : Option ℕ}, Placed RI t p →
      (∀ i, p = some i → remaining i ≤ turns) →
      ∃ q, Placed RI (L.skipEmptyBlocks (L.index.move m) (L.data.move m') turns t) q ∧
        (L.current (L.skipEmptyBlocks (L.index.move m) (L.data.move m') turns t) = none →
          (L.skipEmptyBlocks (L.index.move m) (L.data.move m') turns t).data = none) := by
  intro turns
  induction turns with
  | zero =>
    intro t p ht hturns
    refine ⟨p, ht, fun _ => ht.2 ?_⟩
    cases p with
    | none => rfl
    | some i =>
      have := (hm i (h.index_follows.bound ht.1)).2.1
      have := hturns i rfl
      omega
  | succ turns ih =>
    intro t p ht hturns
    unfold TwoLevels.skipEmptyBlocks
    by_cases hcur : (L.current t).isSome = true
    · rw [if_pos hcur]
      exact ⟨p, ht, fun hn => by rw [hn] at hcur; cases hcur⟩
    · rw [if_neg hcur]
      simp only
      have hsaved : RI (L.saveError t).index p := (index_saveError t).symm ▸ ht.1
      cases p with
      | none =>
        rw [h.index_follows.current_none hsaved, if_pos Option.isNone_none]
        exact ⟨none, ⟨(index_saveError (L.saveError t)).symm ▸ hsaved, fun _ => rfl⟩, fun _ => rfl⟩
      | some i =>
        obtain ⟨hi, hindex⟩ := h.index_follows.current_some hsaved
        obtain ⟨hallowed, -, hless⟩ := hm i hi
        rw [hindex, if_neg (by simp)]
        exact ih (h.placed_reposition m m' hsaved hallowed) fun j hj => by
          have := hless j hj
          have := hturns i rfl
          omega

theorem skipForward_ends (m' : Move Bytes) {p : Option ℕ} (ht : Placed RI t p) :
    ∃ q, Placed RI (L.skipEmptyBlocks L.index.next (L.data.move m') L.turns t) q ∧
      (L.current (L.skipEmptyBlocks L.index.next (L.data.move m') L.turns t) = none →
        (L.skipEmptyBlocks L.index.next (L.data.move m') L.turns t).data = none) := by
  refine h.skip_ends .next m' (fun i => index.length - i) (fun i hi => ⟨rfl, by omega, ?_⟩)
    ht fun i _ => by have := h.turns; omega
  intro j hj
  have hpos : posOf index (i + 1) = some j := hj
  unfold posOf at hpos
  split_ifs at hpos
  have := Option.some.inj hpos
  omega

theorem skipBackward_ends (m' : Move Bytes) {p : Option ℕ} (ht : Placed RI t p) :
    ∃ q, Placed RI (L.skipEmptyBlocks L.index.prev (L.data.move m') L.turns t) q ∧
      (L.current (L.skipEmptyBlocks L.index.prev (L.data.move m') L.turns t) = none →
        (L.skipEmptyBlocks L.index.prev (L.data.move m') L.turns t).data = none) := by
  refine h.skip_ends .prev m' (fun i => i + 1) (fun i hi => ⟨rfl, by omega, ?_⟩)
    ht fun i hi => by
      subst hi
      have := h.turns
      have := h.index_follows.bound ht.1
      omega
  intro j hj
  have hpos : posBefore i = some j := hj
  unfold posBefore at hpos
  split_ifs at hpos
  have := Option.some.inj hpos
  omega

theorem move_ends {p : Option ℕ} (ht : Placed RI t p) (m : Move Bytes) :
    ∃ q, Placed RI (L.twoLevelCursor.move m t) q ∧
      (L.current (L.twoLevelCursor.move m t) = none → (L.twoLevelCursor.move m t).data = none) := by
  cases m with
  | seekToFirst =>
    exact h.skipForward_ends .seekToFirst
      (h.placed_reposition .seekToFirst .seekToFirst ht.1 trivial)
  | seekToLast =>
    exact h.skipBackward_ends .seekToLast
      (h.placed_reposition .seekToLast .seekToLast ht.1 trivial)
  | seek k =>
    exact h.skipForward_ends .seekToFirst
      (h.placed_reposition (.seek k) (.seek k) ht.1 trivial)
  | next => exact h.skipForward_ends .seekToFirst (ht.moveData _)
  | prev => exact h.skipBackward_ends .seekToLast (ht.moveData _)

theorem run_ends {ms : List (Move Bytes)} :
    ∀ {t : TwoLevelIterator σ τ} {p : Option ℕ}, Placed RI t p → (L.current t = none → t.data = none) →
      L.current (L.twoLevelCursor.run ms t) = none → (L.twoLevelCursor.run ms t).data = none := by
  induction ms with
  | nil => exact fun _ hend => hend
  | cons m ms ih =>
    intro t p ht _
    obtain ⟨q, hq, hend⟩ := h.move_ends ht m
    exact ih hq hend

end Separates

/-- **A two-level iterator over blocks that may fail.** Until a block it has visited has
    failed, every sequence of calls leaves it where it leaves a cursor over the
    concatenation of the blocks; from then on its status is not ok. Its loops end: a call
    leaves it at an entry, or with no block open. -/
theorem twoLevelIterator_over_blocks {κ : Type} [LinearOrder κ] {c : Comparator κ}
    {block : Bytes → List KeyValue} {RH : Bytes → τ → Option ℕ → Prop}
    (h : L.Separates c index block RI RH) {s : σ} (hs : RI s none) {ms : List (Move Bytes)}
    (hlegal : L.twoLevelCursor.Legal ms (TwoLevels.new s)) :
    let C := posCursor (belowKey c) (index.map fun kv => block kv.2).flatten
    let t := L.twoLevelCursor.run ms (TwoLevels.new s)
    ((∀ d ∈ t.visited, L.dataStatus d = .ok) →
        L.current t = C.current (C.run ms none) ∧ L.status t = .ok) ∧
      ((∃ d ∈ t.visited, L.dataStatus d ≠ .ok) →
        ∀ later, L.status (L.twoLevelCursor.run later t) ≠ .ok) ∧
      (L.current t = none → t.data = none) := by
  intro C t
  have hfollows := h.indexes.followsUnless
  have hrun := hfollows.run (Indexes.new hs id) hlegal
  refine ⟨fun hok => ?_, fun hbad later => ?_, ?_⟩
  · rcases hrun with hpos | hmet
    · exact ⟨hfollows.current hpos, h.indexes.status_ok hpos.1⟩
    · obtain ⟨d, hd, hf⟩ := hmet.1.resolve_left id
      exact absurd (hok d hd) hf
  · have hmet : Met (fun _ => False) (fun d => L.dataStatus d ≠ .ok) t := Or.inr hbad
    rcases hrun with hpos | hbad'
    · exact absurd hmet hpos.2
    · exact h.indexes.reported (@FollowsUnless.run_bad _ _ _ _ _ _ _ _ hfollows later _ hbad').2
  · exact h.run_ends (p := none) ⟨hs, fun _ => rfl⟩ fun _ => rfl

/-! ### Blocks of which a part can be read -/

/-- A move in a block of which the first entries can be read: `none` is an iterator that
    has met the others. -/
def readableMove {κ : Type} [LinearOrder κ] (c : Comparator κ) (block : Bytes → List KeyValue)
    (readable : Bytes → ℕ) (m : Move Bytes) : Option (Bytes × Option ℕ) → Option (Bytes × Option ℕ)
  | none => none
  | some (v, p) =>
    match (posCursor (belowKey c) (block v)).move m p with
    | none => some (v, none)
    | some i => if i < readable v then some (v, some i) else none

/-- Two levels in memory, over blocks of which the first entries can be read. -/
def readableLevels {κ : Type} [LinearOrder κ] (c : Comparator κ) (index : List KeyValue)
    (block : Bytes → List KeyValue) (readable : Bytes → ℕ) :
    TwoLevels (Option ℕ) (Option (Bytes × Option ℕ)) where
  index := posCursor (belowKey c) index
  indexStatus _ := .ok
  data :=
    { current := fun d => d.bind fun (v, p) => p.bind fun i => (block v)[i]?
      seekToFirst := readableMove c block readable .seekToFirst
      seekToLast := readableMove c block readable .seekToLast
      seek := fun k => readableMove c block readable (.seek k)
      next := readableMove c block readable .next
      prev := readableMove c block readable .prev }
  dataStatus d := if d.isSome then .ok else .corruption "bad block"
  function v := some (v, none)
  turns := index.length

theorem readableLevels_move {κ : Type} [LinearOrder κ] (c : Comparator κ) (index : List KeyValue)
    (block : Bytes → List KeyValue) (readable : Bytes → ℕ) (m : Move Bytes) :
    (readableLevels c index block readable).data.move m = readableMove c block readable m := by
  cases m <;> rfl

theorem readableLevels_separates {κ : Type} [LinearOrder κ] (c : Comparator κ) (index : List KeyValue)
    (block : Bytes → List KeyValue) (readable : Bytes → ℕ)
    (sorted : index.Pairwise fun x y => c.rank x.1 < c.rank y.1)
    (at_most : ∀ kv ∈ index, ∀ e ∈ block kv.2, c.rank e.1 ≤ c.rank kv.1)
    (above : ∀ (i : ℕ) (kv kv' : KeyValue), index[i]? = some kv → index[i + 1]? = some kv' →
      ∀ e ∈ block kv'.2, c.rank kv.1 < c.rank e.1) :
    (readableLevels c index block readable).Separates c index block
      (fun s p => s = p ∧ ∀ i, p = some i → i < index.length)
      fun v d p => d = some (v, p) ∧ ∀ i, p = some i → i < (block v).length where
  turns := le_rfl
  sorted := sorted
  at_most := at_most
  above := above
  index_follows := by
    have hunless : FollowsUnless (posCursor (belowKey c) index) (belowKey c) index
        (fun s p => s = p ∧ ∀ i, p = some i → i < index.length) fun _ => False := by
      refine ⟨?_, fun hs => hs.2 _ rfl, ?_, fun _ h => h⟩
      · rintro s p ⟨rfl, -⟩
        rfl
      · rintro s p m ⟨rfl, hp⟩ -
        exact Or.inl ⟨rfl, Lib.posCursor_bound hp m⟩
    exact hunless.follows fun _ => id
  index_status := fun _ _ _ => rfl
  data_follows := by
    intro kv _
    refine ⟨?_, fun hs => hs.2 _ rfl, ?_, ?_⟩
    · rintro d p ⟨rfl, -⟩
      rfl
    · rintro d p m ⟨rfl, hp⟩ -
      have hbound := @Lib.posCursor_bound _ _ (belowKey c) _ _ hp m
      rw [readableLevels_move, readableMove]
      cases hq : (posCursor (belowKey c) (block kv.2)).move m p with
      | none => exact Or.inl ⟨rfl, fun _ h => nomatch h⟩
      | some i =>
        rw [hq] at hbound
        simp only
        split_ifs
        · exact Or.inl ⟨rfl, hbound⟩
        · exact Or.inr nofun
    · intro d m hd
      cases d with
      | none =>
        rw [readableLevels_move]
        exact hd
      | some d => exact absurd rfl hd
  data_status := by
    rintro v d q ⟨rfl, -⟩
    rfl
  data_sticky := by
    intro d m hd
    cases d with
    | none =>
      rw [readableLevels_move]
      exact hd
    | some d => exact absurd rfl hd
  opened := fun kv _ => Or.inl ⟨rfl, fun _ h => nomatch h⟩

/-- Two blocks, of which the second breaks off after its first entry. -/
def brokenLevels : TwoLevels (Option ℕ) (Option (Bytes × Option ℕ)) :=
  readableLevels bytewiseComparator [([2], [0]), ([4], [1])]
    (fun v => if v = [0] then [([1], [10]), ([2], [20])] else [([3], [30]), ([4], [40])])
    fun v => if v = [0] then 2 else 1

theorem twoLevelIterator_breaks_off :
    brokenLevels.current (brokenLevels.twoLevelCursor.run [.seekToFirst, .next, .next]
        (TwoLevels.new none)) = some ([3], [30]) ∧
      brokenLevels.status (brokenLevels.twoLevelCursor.run [.seekToFirst, .next, .next, .next]
        (TwoLevels.new none)) ≠ .ok := by
  have hS := readableLevels_separates bytewiseComparator [([2], [0]), ([4], [1])]
    (fun v => if v = [0] then [([1], [10]), ([2], [20])] else [([3], [30]), ([4], [40])])
    (fun v => if v = [0] then 2 else 1) (by decide) (by decide) (by
      intro i kv kv' hi hi'
      match i with
      | 0 =>
        obtain rfl := Option.some.inj hi
        obtain rfl := Option.some.inj hi'
        decide
      | i + 1 => cases hi')
  have hlegal : brokenLevels.twoLevelCursor.Legal [.seekToFirst, .next, .next] (TwoLevels.new none) := by
    decide +kernel
  have hlegal' : brokenLevels.twoLevelCursor.Legal [.seekToFirst, .next, .next, .next]
      (TwoLevels.new none) := by
    decide +kernel
  have hread := twoLevelIterator_over_blocks hS ⟨rfl, fun _ h => nomatch h⟩ hlegal
  have hbroken := twoLevelIterator_over_blocks hS ⟨rfl, fun _ h => nomatch h⟩ hlegal'
  exact ⟨(hread.1 (by decide +kernel)).1.trans (by decide +kernel),
    hbroken.2.1 ⟨none, by decide +kernel, by decide +kernel⟩ []⟩

end TwoLevels

end Ambar
