import Ambar.Table.Lookup

/-!
# A block, from the builder to the iterator

What `BlockBuilder` finishes (`src/block_builder.cpp`) and what `Block`'s iterator
(`src/block.cpp`, lines 86–297) makes of it: whatever the restart interval, the iterator moves as
a cursor over the list of entries does. A builder that was given nothing finishes a block with
one restart point and no entry to go with it.

Results:
* `BlockBuilder.length_finish`: the estimate is the size.
* `emptyBlock_follows`: the iterator of the block without entries.
* `finishedBlock_reads`: the round trip, for every list of entries and every sequence of moves.
-/

namespace Ambar

open Lib (Cursor Follows Move posCursor)

variable {κ : Type} [LinearOrder κ]

/-- Keys that the comparator can read (`src/comparator.hpp`, lines 43–57), in increasing order. -/
structure Comparator.Increasing (c : Comparator κ) (kvs : List KeyValue) : Prop where
  readable : ∀ kv ∈ kvs, c.minKeyLength ≤ kv.1.length
  sorted : kvs.Pairwise fun x y => c.rank x.1 < c.rank y.1

/-- The builder after `add` of the entries in turn. -/
def BlockBuilder.addAll (restartInterval : ℕ) (kvs : List KeyValue) : BlockBuilder :=
  kvs.foldl (BlockBuilder.add restartInterval) BlockBuilder.new

/-- **The estimate is the size** of the block that `finish` makes. -/
theorem BlockBuilder.length_finish (b : BlockBuilder) : b.finish.length = b.currentSizeEstimate := by
  rw [BlockBuilder.finish, BlockBuilder.currentSizeEstimate, List.length_append, List.length_append,
    length_array, length_putFixed]

/-! ## The block without entries -/

/-- The block a builder finishes that was given nothing. -/
def emptyBlock (address : ℕ) : Block := Block.newAt address BlockBuilder.new.finish

theorem emptyBlock_restartOffset (address : ℕ) : (emptyBlock address).restartOffset = 0 := rfl

theorem emptyBlock_numRestarts (address : ℕ) : (emptyBlock address).numRestarts = 1 := rfl

theorem emptyBlock_restartPoint (address : ℕ) : (emptyBlock address).restartPoint 0 = 0 := rfl

/-- An iterator of the block without entries: nowhere, with nothing wrong. -/
def ReadsNothing (address : ℕ) (s : AnyIter) (p : Option ℕ) : Prop :=
  p = none ∧ s.status = .ok ∧ ∃ s', s = .iter (emptyBlock address) s'

section

variable {c : Comparator κ} {address : ℕ} {s : BlockIter}

omit [LinearOrder κ] in
/-- There is no entry to parse. -/
theorem emptyBlock_parse : (emptyBlock address).parseNextEntry c s =
    (false, { s with current := 0, restartIndex := 1 }) := by
  rw [Block.parseNextEntry, emptyBlock_restartOffset, emptyBlock_numRestarts]
  exact if_pos (Nat.zero_le _)

theorem emptyBlock_seekToRestartPoint : ((emptyBlock address).seekToRestartPoint 0 s) =
    { s with key := [], restartIndex := 0, valueStart := 0, valueLength := 0 } := by
  rw [Block.seekToRestartPoint, emptyBlock_restartPoint, emptyBlock_restartOffset]
  exact if_neg (lt_irrefl 0)

theorem emptyBlock_newIterator : (emptyBlock address).newIterator =
    .iter (emptyBlock address) (emptyBlock address).iter := by
  have hsize : (emptyBlock address).size = 8 := rfl
  rw [Block.newIterator, hsize, emptyBlock_numRestarts, if_neg (by omega), if_neg Nat.one_ne_zero]

/-- **The iterator of the block without entries** never becomes valid. -/
theorem emptyBlock_follows (c : Comparator κ) (address : ℕ) :
    Follows (AnyIter.cursor c) (fun target kv => c.less kv.1 target) [] (ReadsNothing address) where
  current := by
    rintro _ _ ⟨rfl, -, s, rfl⟩
    show (emptyBlock address).current s = none
    rw [Block.current, emptyBlock_restartOffset, if_neg (Nat.not_lt_zero s.current)]
  bound := fun hs => absurd hs.1 (Option.some_ne_none _)
  seekToFirst := by
    rintro _ _ ⟨rfl, hstatus, s, rfl⟩
    refine ⟨rfl, ?_, _, rfl⟩
    show ((emptyBlock address).seekToFirst c s).status = .ok
    rw [Block.seekToFirst, emptyBlock_seekToRestartPoint, emptyBlock_parse]
    exact hstatus
  seekToLast := by
    rintro _ _ ⟨rfl, hstatus, s, rfl⟩
    refine ⟨rfl, ?_, _, rfl⟩
    show ((emptyBlock address).seekToLast c s).status = .ok
    rw [Block.seekToLast, emptyBlock_numRestarts, if_neg Nat.one_ne_zero,
      emptyBlock_seekToRestartPoint]
    show ((emptyBlock address).walkTo c _ 8 _).status = .ok
    rw [Block.walkTo, emptyBlock_parse]
    exact hstatus
  seek := by
    rintro _ _ target ⟨rfl, hstatus, s, rfl⟩
    refine ⟨rfl, ?_, _, rfl⟩
    show ((emptyBlock address).seekWalk c target 9 ((emptyBlock address).seekToRestartPoint 0 s)).status = .ok
    rw [Block.seekWalk, emptyBlock_seekToRestartPoint, emptyBlock_parse]
    exact hstatus
  next := fun hs => absurd hs.1 (Option.some_ne_none _)
  prev := fun hs => absurd hs.1 (Option.some_ne_none _)
  prev_zero := fun hs => absurd hs.1 (Option.some_ne_none _)

end

/-! ## Every block -/

/-- The iterator of a finished block follows the entries that were added. -/
theorem addAll_follows {c : Comparator κ} {restartInterval : ℕ} (hinterval : 1 ≤ restartInterval)
    {kvs : List KeyValue} (hkvs : c.Increasing kvs)
    (hsize : (BlockBuilder.addAll restartInterval kvs).finish.length < 2 ^ 32) (address : ℕ) :
    ∃ R, Follows (AnyIter.cursor c) (fun target kv => c.less kv.1 target) kvs R ∧
      R (Block.newAt address (BlockBuilder.addAll restartInterval kvs).finish).newIterator none ∧
      ∀ s p, R s p → s.status = .ok := by
  by_cases hnil : kvs = []
  · subst hnil
    refine ⟨ReadsNothing address, emptyBlock_follows c address, ?_, fun _ _ hs => hs.2.1⟩
    show ReadsNothing address (emptyBlock address).newIterator none
    rw [emptyBlock_newIterator]
    exact ⟨rfl, rfl, _, rfl⟩
  · obtain ⟨chunks, shared, starts, hholds⟩ :=
      BlockBuilder.Holds.foldl_add hinterval kvs BlockBuilder.holds_new
    have himage := hholds.image hnil hkvs.readable hsize address
    exact ⟨BlockReads c _ kvs, blockReads_follows hkvs.sorted, himage.blockReads,
      fun _ _ hs => hs.status⟩

/-- **The round trip of a block.** For every list of entries in increasing order, the empty one
    included, and every restart interval of at least 1: the estimate is the size of the finished
    block, and, where that is below 4 GiB, its iterator returns the list from the first entry to
    the end, and after every sequence of moves stands where a cursor over the list does, with
    nothing wrong. -/
theorem finishedBlock_reads (c : Comparator κ) (restartInterval : ℕ) (hinterval : 1 ≤ restartInterval)
    (kvs : List KeyValue) (hkvs : c.Increasing kvs)
    (hsize : (BlockBuilder.addAll restartInterval kvs).finish.length < 2 ^ 32) (address : ℕ) :
    let b := BlockBuilder.addAll restartInterval kvs
    let it := (Block.newAt address b.finish).newIterator
    let C := AnyIter.cursor c
    let P := posCursor (fun target kv => c.less kv.1 target) kvs
    b.currentSizeEstimate = b.finish.length ∧
    (∀ fuel ≥ kvs.length, C.drain fuel (C.seekToFirst it) = kvs) ∧
    ∀ moves : List (Move Bytes), C.Legal moves it →
      C.current (C.run moves it) = P.current (P.run moves none) ∧ (C.run moves it).status = .ok := by
  intro b it C P
  obtain ⟨R, hfollows, hit, hstatus⟩ := addAll_follows hinterval hkvs hsize address
  refine ⟨b.length_finish.symm, fun fuel hfuel => hfollows.forward hit hfuel, fun moves hlegal => ?_⟩
  refine ⟨hfollows.run_current hit hlegal, ?_⟩
  rcases hfollows.unless.run hit hlegal with hrun | hbad
  · exact hstatus _ _ hrun
  · exact hbad.elim

/-- Three entries with a restart point every two, the last value of two hundred bytes. -/
theorem finishedBlock_reads_three :
    let kvs : List KeyValue := [([97], [1]), ([97, 98], [2]), ([99], List.replicate 200 3)]
    let it := (Block.newAt 0 (BlockBuilder.addAll 2 kvs).finish).newIterator
    let C := AnyIter.cursor bytewiseComparator
    C.current (C.run [.seekToLast, .prev, .prev, .next] it) = some ([97, 98], [2]) := by
  intro kvs it C
  have hkvs : bytewiseComparator.Increasing kvs := ⟨by decide, by decide⟩
  exact ((finishedBlock_reads bytewiseComparator 2 (by decide) kvs hkvs (by decide +kernel) 0).2.2
    [.seekToLast, .prev, .prev, .next] (by decide +kernel)).1

end Ambar
