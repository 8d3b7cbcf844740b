import Ambar.Compaction.Inputs
import Ambar.Read.Sources

/-!
# What a compaction writes

Model of the loop of `DBImpl::do_compaction_work` (`src/db_impl.cpp`,
lines 1359–1489) with `Compaction::is_base_level_for_key`,
`Compaction::should_stop_before` (`src/version_set.cpp`, lines 1276–1325) and the
edit of `install_compaction_results`. The entries arrive in the order of the
merging iterator; each is dropped or added to the open output file. A file number
is handed in from outside, since other threads take numbers in between.

* `isBaseLevelForKey_spec`: the resumed scans of the deeper levels find out
  whether a file there covers the user key; `deeperFiles_found`: for a sequence of keys.
* `WorkInv.step`: what one entry changes. Kept are the entries that no entry seen
  by every snapshot shadows, deletions with nothing below them apart.
* `WorkInv.run`: the same for the whole input.
-/

namespace Ambar

/-! ## The state of the loop -/

/-- `CompactionState::Output` (`src/db_impl.cpp`, lines 143–148) and what its table
    holds. -/
structure Output where
  number : ℕ
  smallest : InternalKey
  largest : InternalKey
  entries : List Entry

/-- `CompactionState`, the local variables of the loop and the cursors the
    compaction keeps (`src/version_set.hpp`, lines 323–335). `builder` is the open
    output, `outputs` are the finished ones. -/
structure CompactionState where
  currentUserKey : Option Bytes
  lastSequenceForKey : ℕ
  levelPointers : ℕ → ℕ
  grandparentIndex : ℕ
  seenKey : Bool
  overlappedBytes : ℕ
  outputs : List Output
  builder : Option Output

namespace CompactionState

/-- The state before the first entry. -/
def init : CompactionState where
  currentUserKey := none
  lastSequenceForKey := kMaxSequenceNumber
  levelPointers := fun _ => 0
  grandparentIndex := 0
  seenKey := false
  overlappedBytes := 0
  outputs := []
  builder := none

/-- `finish_compaction_output_file` (lines 1310–1346): the open output is done. -/
def finish (st : CompactionState) : CompactionState :=
  { st with outputs := st.outputs ++ st.builder.toList, builder := none }

/-- The outputs, the open one last. -/
def all (st : CompactionState) : List Output := st.outputs ++ st.builder.toList

end CompactionState

/-- The loop of `should_stop_before` (`src/version_set.cpp`, lines 1302–1310) over the
    grandparents from the index on: how many are passed, and their bytes. -/
def passGrandparents (key : InternalKey) : List FileMetaData → ℕ × ℕ
  | [] => (0, 0)
  | f :: files =>
    if f.largest < key then
      let (passed, bytes) := passGrandparents key files
      (passed + 1, bytes + f.fileSize)
    else (0, 0)

/-- `Compaction::should_stop_before` (lines 1299–1325). -/
def shouldStopBefore (c : Compaction) (st : CompactionState) (key : InternalKey) :
    Bool × CompactionState :=
  let (passed, bytes) := passGrandparents key (c.grandparents.drop st.grandparentIndex)
  let overlapped := if st.seenKey then st.overlappedBytes + bytes else st.overlappedBytes
  let stop := decide (10 * c.maxOutputFileSize < overlapped)
  (stop, { st with
    grandparentIndex := st.grandparentIndex + passed
    seenKey := true
    overlappedBytes := if stop then 0 else overlapped })

/-- The inner loop of `is_base_level_for_key` (lines 1284–1294) on the files of a
    level from the pointer on: how many are passed, and whether the next one covers
    the key. -/
def scanLevel (userKey : Bytes) : List FileMetaData → ℕ × Bool
  | [] => (0, false)
  | f :: files =>
    if userKey ≤ f.largest.userKey then (0, decide (f.smallest.userKey ≤ userKey))
    else
      let (passed, covers) := scanLevel userKey files
      (passed + 1, covers)

/-- The outer loop (lines 1279–1295) over the levels still to scan. -/
def baseLevelLoop (files : Levels) (userKey : Bytes) : List ℕ → (ℕ → ℕ) → Bool × (ℕ → ℕ)
  | [], pointers => (true, pointers)
  | level :: levels, pointers =>
    let (passed, covers) := scanLevel userKey ((files level).drop (pointers level))
    let pointers := Function.update pointers level (pointers level + passed)
    if covers then (false, pointers) else baseLevelLoop files userKey levels pointers

/-- The levels below the two that are compacted. -/
def deeperLevels (level : ℕ) : List ℕ := (List.range kNumLevels).filter fun l => level + 2 ≤ l

/-- `Compaction::is_base_level_for_key` (lines 1276–1297). -/
def isBaseLevelForKey (c : Compaction) (userKey : Bytes) (pointers : ℕ → ℕ) : Bool × (ℕ → ℕ) :=
  baseLevelLoop c.inputVersion userKey (deeperLevels c.level) pointers

/-- Whether the entry is dropped (`src/db_impl.cpp`, lines 1418–1450). -/
def dropEntry (c : Compaction) (smallestSnapshot : ℕ) (st : CompactionState) (e : Entry) :
    Bool × CompactionState :=
  match parseInternalKey e.key with
  | none =>
    -- a key that will not parse is kept
    (false, { st with currentUserKey := none, lastSequenceForKey := kMaxSequenceNumber })
  | some key =>
    let lastSequence :=
      if st.currentUserKey = some key.userKey then st.lastSequenceForKey else kMaxSequenceNumber
    let st := { st with currentUserKey := some key.userKey, lastSequenceForKey := key.sequence }
    if lastSequence ≤ smallestSnapshot then (true, st)
    else if key.type = .deletion ∧ key.sequence ≤ smallestSnapshot then
      let (base, pointers) := isBaseLevelForKey c key.userKey st.levelPointers
      (base, { st with levelPointers := pointers })
    else (false, st)

/-- Adding a kept entry to the open output (lines 1452–1470), which is opened under
    `number` if there is none: the new state, and whether `number` was taken. -/
def addEntry (opts : Options) (c : Compaction) (number : ℕ) (st : CompactionState) (e : Entry) :
    CompactionState × Bool :=
  let output := match st.builder with
    | none => ⟨number, e.key, e.key, [e]⟩
    | some o => { o with largest := e.key, entries := o.entries ++ [e] }
  let st' := { st with builder := some output }
  (if c.maxOutputFileSize ≤ opts.builderSize output.entries then st'.finish else st',
    st.builder.isNone)

/-- Cutting the open output before the entry (lines 1410–1416). -/
def cutOutput (c : Compaction) (st : CompactionState) (e : Entry) : CompactionState :=
  if st.builder.isSome then
    let (stop, st) := shouldStopBefore c st e.key
    if stop then st.finish else st
  else st

/-- One turn of the loop (lines 1405–1472). -/
def compactEntry (opts : Options) (c : Compaction) (smallestSnapshot number : ℕ)
    (st : CompactionState) (e : Entry) : CompactionState × Bool :=
  let (drop, st) := dropEntry c smallestSnapshot (cutOutput c st e) e
  if drop then (st, false) else addEntry opts c number st e

/-- The loop over entries; `newFileNumber k` is the number of the `k`-th file opened. -/
def compactEntries (opts : Options) (c : Compaction) (smallestSnapshot : ℕ)
    (newFileNumber : ℕ → ℕ) : (opened : ℕ) → CompactionState → List Entry → CompactionState
  | _, st, [] => st
  | opened, st, e :: es =>
    let (st, took) := compactEntry opts c smallestSnapshot (newFileNumber opened) st e
    compactEntries opts c smallestSnapshot newFileNumber (if took then opened + 1 else opened) st es

/-- The sources of `make_input_iterator` (`src/version_set.cpp`, lines 1218–1248). -/
def inputSources (tables : Tables) (c : Compaction) : List Source :=
  (if c.inputs0 = [] then []
    else if c.level = 0 then c.inputs0.map fun f => .list (tables f.number)
    else [.level c.inputs0]) ++
  (if c.inputs1 = [] then [] else [.level c.inputs1])

/-- The entries a compaction reads, in order. -/
def inputEntries (tables : Tables) (c : Compaction) : List Entry :=
  internalEntries tables (inputSources tables c)

/-- `do_compaction_work` (lines 1359–1489) with no flush in between and no failure: the
    outputs. -/
def doCompactionWork (opts : Options) (tables : Tables) (c : Compaction) (smallestSnapshot : ℕ)
    (newFileNumber : ℕ → ℕ) : List Output :=
  (compactEntries opts c smallestSnapshot newFileNumber 0 .init (inputEntries tables c)).finish.outputs

/-- The metadata recorded for an output. -/
def Output.file (opts : Options) (o : Output) : FileMetaData :=
  ⟨o.number, opts.tableSize o.entries, o.smallest, o.largest⟩

/-- The edit of `install_compaction_results` (lines 1348–1357): the compact pointer, the
    deleted inputs (`add_input_deletions`) and the outputs. -/
def Compaction.installEdit (opts : Options) (c : Compaction) (outputs : List Output) : VersionEdit :=
  let edit := VersionEdit.empty.setCompactPointer c.level c.largest
  let edit := c.inputs0.foldl (fun edit f => edit.removeFile c.level f.number) edit
  let edit := c.inputs1.foldl (fun edit f => edit.removeFile (c.level + 1) f.number) edit
  outputs.foldl (fun edit o => edit.addFile (c.level + 1) (o.file opts)) edit

/-- The edit of a trivial move (`src/db_impl.cpp`, lines 1127–1131), with the compact
    pointer set when it was picked. -/
def Compaction.moveEdit (c : Compaction) (f : FileMetaData) : VersionEdit :=
  ((VersionEdit.empty.setCompactPointer c.level c.largest).removeFile c.level f.number).addFile
    (c.level + 1) f

/-! ## The deeper levels -/

/-- The file's user-key range holds the user key. -/
def Covers (f : FileMetaData) (u : Bytes) : Prop :=
  f.smallest.userKey ≤ u ∧ u ≤ f.largest.userKey

/-- No file below the two compacted levels covers the user key. -/
def BaseLevel (c : Compaction) (u : Bytes) : Prop :=
  ∀ level ∈ deeperLevels c.level, ∀ f ∈ c.inputVersion level, ¬ Covers f u

/-- The files the pointers have passed end before `u`. -/
def PointersOk (files : Levels) (pointers : ℕ → ℕ) (u : Bytes) : Prop :=
  ∀ level, ∀ f ∈ (files level).take (pointers level), f.largest.userKey < u

theorem scanLevel_spec {u : Bytes} {files : List FileMetaData} (hd : Disjoint files)
    (hp : ∀ f ∈ files, f.smallest ≤ f.largest) :
    (∀ f ∈ files.take (scanLevel u files).1, f.largest.userKey < u) ∧
      ((scanLevel u files).2 = true ↔ ∃ f ∈ files, Covers f u) := by
  induction files with
  | nil => simp [scanLevel]
  | cons f files ih =>
    obtain ⟨hf, hrest⟩ := List.pairwise_cons.mp hd
    have hpf := hp f (by simp)
    rw [scanLevel]
    by_cases hle : u ≤ f.largest.userKey
    · rw [if_pos hle]
      refine ⟨by simp, ?_⟩
      simp only [decide_eq_true_eq]
      refine ⟨fun h => ⟨f, by simp, h, hle⟩, ?_⟩
      rintro ⟨g, hg, hgs, -⟩
      rcases List.mem_cons.mp hg with rfl | hg
      · exact hgs
      · exact (InternalKey.userKey_le_of_le (hpf.trans (hf g hg).le)).trans hgs
    · rw [if_neg hle]
      obtain ⟨h1, h2⟩ := ih hrest fun g hg => hp g (List.mem_cons_of_mem _ hg)
      refine ⟨fun g hg => ?_, ?_⟩
      · rw [List.take_succ_cons] at hg
        rcases List.mem_cons.mp hg with rfl | hg
        · exact not_le.mp hle
        · exact h1 g hg
      · rw [h2]
        refine ⟨fun ⟨g, hg, hc⟩ => ⟨g, List.mem_cons_of_mem _ hg, hc⟩, ?_⟩
        rintro ⟨g, hg, hc⟩
        rcases List.mem_cons.mp hg with rfl | hg
        · exact absurd hc.2 hle
        · exact ⟨g, hg, hc⟩

theorem baseLevelLoop_spec {files : Levels} {u : Bytes} :
    ∀ (levels : List ℕ) (pointers : ℕ → ℕ), (∀ level ∈ levels, Disjoint (files level)) →
      (∀ level ∈ levels, ∀ f ∈ files level, f.smallest ≤ f.largest) →
      PointersOk files pointers u →
      ((baseLevelLoop files u levels pointers).1 = true ↔
        ∀ level ∈ levels, ∀ f ∈ files level, ¬ Covers f u) ∧
      PointersOk files (baseLevelLoop files u levels pointers).2 u := by
  intro levels
  induction levels with
  | nil => exact fun pointers _ _ h => ⟨by simp [baseLevelLoop], h⟩
  | cons level levels ih =>
    intro pointers hd hp hptr
    obtain ⟨h1, h2⟩ := @scanLevel_spec u ((files level).drop (pointers level))
      ((hd level (by simp)).sublist (List.drop_sublist _ _))
      (fun f hf => hp level (by simp) f ((List.drop_sublist _ _).subset hf))
    -- the files already passed do not cover the key, so the scan may resume
    have hcovers : (scanLevel u ((files level).drop (pointers level))).2 = true ↔
        ∃ f ∈ files level, Covers f u := by
      rw [h2]
      refine ⟨fun ⟨f, hf, hc⟩ => ⟨f, (List.drop_sublist _ _).subset hf, hc⟩, ?_⟩
      rintro ⟨f, hf, hc⟩
      rw [← List.take_append_drop (pointers level) (files level)] at hf
      rcases List.mem_append.mp hf with hf | hf
      · exact absurd (hptr level f hf) (not_lt.mpr hc.2)
      · exact ⟨f, hf, hc⟩
    have hptr' : PointersOk files (Function.update pointers level (pointers level +
        (scanLevel u ((files level).drop (pointers level))).1)) u := by
      intro l f hf
      by_cases hl : l = level
      · subst hl
        rw [Function.update_self, List.take_add] at hf
        rcases List.mem_append.mp hf with hf | hf
        · exact hptr l f hf
        · exact h1 f hf
      · rw [Function.update_of_ne hl] at hf
        exact hptr l f hf
    rw [baseLevelLoop]
    by_cases hc : (scanLevel u ((files level).drop (pointers level))).2 = true
    · simp only [hc, if_true]
      refine ⟨?_, hptr'⟩
      simp only [Bool.false_eq_true, false_iff]
      intro hall
      obtain ⟨f, hf, hcf⟩ := hcovers.mp hc
      exact hall level (by simp) f hf hcf
    · obtain ⟨h3, h4⟩ := ih _ (fun l hl => hd l (List.mem_cons_of_mem _ hl))
        (fun l hl => hp l (List.mem_cons_of_mem _ hl)) hptr'
      simp only [hc, if_false, Bool.false_eq_true]
      refine ⟨?_, h4⟩
      rw [h3]
      constructor
      · intro h l hl
        rcases List.mem_cons.mp hl with rfl | hl
        · exact fun f hf hcf => hc (hcovers.mpr ⟨f, hf, hcf⟩)
        · exact h l hl
      · exact fun h l hl => h l (List.mem_cons_of_mem _ hl)

theorem mem_deeperLevels {level l : ℕ} : l ∈ deeperLevels level ↔ l < kNumLevels ∧ level + 2 ≤ l := by
  simp [deeperLevels]

theorem isBaseLevelForKey_spec {c : Compaction} {u : Bytes} {pointers : ℕ → ℕ}
    (hd : ∀ level, 0 < level → Disjoint (c.inputVersion level))
    (hp : ∀ level, 0 < level → ∀ f ∈ c.inputVersion level, f.smallest ≤ f.largest)
    (hptr : PointersOk c.inputVersion pointers u) :
    ((isBaseLevelForKey c u pointers).1 = true ↔ BaseLevel c u) ∧
      PointersOk c.inputVersion (isBaseLevelForKey c u pointers).2 u := by
  have hpos : ∀ level ∈ deeperLevels c.level, 0 < level := fun level hl => by
    have := mem_deeperLevels.mp hl
    omega
  exact baseLevelLoop_spec _ _ (fun level hl => hd level (hpos level hl))
    (fun level hl => hp level (hpos level hl)) hptr

/-! ### A sequence of calls -/

instance (f : FileMetaData) (u : Bytes) : Decidable (Covers f u) :=
  inferInstanceAs (Decidable (_ ∧ _))

instance (c : Compaction) (u : Bytes) : Decidable (BaseLevel c u) :=
  inferInstanceAs (Decidable (∀ level ∈ deeperLevels c.level, ∀ f ∈ c.inputVersion level, ¬ Covers f u))

/-- The answers of the calls for one user key after the other; the pointers a call leaves are
    those the next one finds. -/
def baseLevelCalls (c : Compaction) : (pointers : ℕ → ℕ) → (userKeys : List Bytes) → List Bool
  | _, [] => []
  | pointers, u :: us =>
    let (base, pointers) := isBaseLevelForKey c u pointers
    base :: baseLevelCalls c pointers us

/-- What the pointers have passed for one key, they may pass for a later one. -/
theorem PointersOk.mono {files : Levels} {pointers : ℕ → ℕ} {u v : Bytes}
    (h : PointersOk files pointers u) (huv : u ≤ v) : PointersOk files pointers v :=
  fun level f hf => (h level f hf).trans_le huv

theorem baseLevelCalls_eq {c : Compaction}
    (hd : ∀ level, 0 < level → Disjoint (c.inputVersion level))
    (hp : ∀ level, 0 < level → ∀ f ∈ c.inputVersion level, f.smallest ≤ f.largest) (us : List Bytes) :
    ∀ pointers, us.Pairwise (· ≤ ·) → (∀ u ∈ us, PointersOk c.inputVersion pointers u) →
      baseLevelCalls c pointers us = us.map fun u => decide (BaseLevel c u) := by
  induction us with
  | nil => exact fun _ _ _ => rfl
  | cons u us ih =>
    intro pointers hsorted hptr
    obtain ⟨hu, hrest⟩ := List.pairwise_cons.mp hsorted
    obtain ⟨hbase, hptr'⟩ := isBaseLevelForKey_spec hd hp (hptr u List.mem_cons_self)
    have hanswer : (isBaseLevelForKey c u pointers).1 = decide (BaseLevel c u) := by
      rw [Bool.eq_iff_iff, decide_eq_true_iff, hbase]
    show (isBaseLevelForKey c u pointers).1 :: baseLevelCalls c (isBaseLevelForKey c u pointers).2 us = _
    rw [hanswer, List.map_cons, ih _ hrest fun v hv => hptr'.mono (hu v hv)]

/-- **Looking below.** In a version whose levels below 0 are sorted and disjoint, the calls of
    `is_base_level_for_key` for user keys that do not decrease answer as looking at every file
    of the deeper levels does, and so does the binary search of the overlap test. -/
theorem deeperFiles_found (c : Compaction)
    (hd : ∀ level, 0 < level → Disjoint (c.inputVersion level))
    (hp : ∀ level, 0 < level → ∀ f ∈ c.inputVersion level, f.Proper) :
    (∀ us : List Bytes, us.Pairwise (· ≤ ·) →
      baseLevelCalls c (fun _ => 0) us = us.map fun u => decide (BaseLevel c u)) ∧
    ∀ level, 0 < level → ∀ smallest largest : Option Bytes,
      someFileOverlapsRange true (c.inputVersion level) smallest largest =
        (c.inputVersion level).any (meets smallest largest) := by
  constructor
  · intro us hsorted
    refine baseLevelCalls_eq hd (fun level hl f hf => (hp level hl f hf).1) us _ hsorted ?_
    intro u _ level f hf
    rw [List.take_zero] at hf
    exact absurd hf List.not_mem_nil
  · intro level hl smallest largest
    rw [Bool.eq_iff_iff, List.any_eq_true]
    exact someFileOverlapsRange_iff (fun _ => hd level hl) (hp level hl) smallest largest

/-- Two files of level 2 that meet in one user key. -/
theorem deeperFiles_found_two :
    let f : FileMetaData := ⟨1, 10, makeInternalKey [1] 9 .value, makeInternalKey [3] 8 .value⟩
    let g : FileMetaData := ⟨2, 10, makeInternalKey [3] 5 .value, makeInternalKey [6] 4 .value⟩
    let c : Compaction := ⟨0, 100, fun level => if level = 2 then [f, g] else [], [], [], [],
      makeInternalKey [9] 3 .value⟩
    baseLevelCalls c (fun _ => 0) [[0], [3], [3], [5], [7]] = [true, false, false, false, true] := by
  intro f g c
  have hd : ∀ level, 0 < level → Disjoint (c.inputVersion level) := fun level _ => by
    by_cases h : level = 2
    · subst h
      show Disjoint [f, g]
      exact List.pairwise_pair.mpr (by decide)
    · show Disjoint (if level = 2 then [f, g] else [])
      rw [if_neg h]
      exact List.Pairwise.nil
  have hp : ∀ level, 0 < level → ∀ h ∈ c.inputVersion level, h.Proper := fun level _ h hh => by
    by_cases hl : level = 2
    · subst hl
      have hh : h ∈ [f, g] := hh
      rcases List.mem_pair.mp hh with rfl | rfl
      · exact ⟨by decide, by decide, by decide⟩
      · exact ⟨by decide, by decide, by decide⟩
    · have hh : h ∈ (if level = 2 then [f, g] else []) := hh
      rw [if_neg hl] at hh
      exact absurd hh List.not_mem_nil
  rw [(deeperFiles_found c hd hp).1 _ (by decide)]
  decide

/-! ## Which entries are kept -/

/-- A newer entry of the same user key is visible to every snapshot. -/
def Shadowed (snapshot : ℕ) (es : List Entry) (e : Entry) : Prop :=
  ∃ p ∈ es, p.userKey = e.userKey ∧ p.key < e.key ∧ p.sequence ≤ snapshot

/-- A deletion visible to every snapshot with nothing below it. -/
def DeadTombstone (c : Compaction) (snapshot : ℕ) (e : Entry) : Prop :=
  e.shown = none ∧ e.sequence ≤ snapshot ∧ BaseLevel c e.userKey

/-- A finished or open output: not empty, with its first and last key. -/
structure OutputOk (o : Output) : Prop where
  smallest : o.entries.head?.map (·.key) = some o.smallest
  largest : o.entries.getLast?.map (·.key) = some o.largest

theorem OutputOk.extend {o : Output} (h : OutputOk o) (e : Entry) :
    OutputOk { o with largest := e.key, entries := o.entries ++ [e] } := by
  refine ⟨?_, by simp⟩
  have hs := h.smallest
  cases hes : o.entries with
  | nil => simp [hes] at hs
  | cons a es => simpa [hes] using hs

/-- The state of the loop after the entries `done`. -/
structure WorkInv (c : Compaction) (snapshot : ℕ) (done : List Entry) (st : CompactionState) :
    Prop where
  current : st.currentUserKey = done.getLast?.map (·.userKey)
  last : ∀ p, done.getLast? = some p → st.lastSequenceForKey = p.sequence
  pointers : ∀ u, (∀ p ∈ done, p.userKey ≤ u) → PointersOk c.inputVersion st.levelPointers u
  sublist : (st.all.flatMap (·.entries)).Sublist done
  kept : ∀ e, e ∈ st.all.flatMap (·.entries) ↔
    e ∈ done ∧ ¬ Shadowed snapshot done e ∧ ¬ DeadTombstone c snapshot e
  outputs : ∀ o ∈ st.all, OutputOk o

theorem workInv_init (c : Compaction) (snapshot : ℕ) : WorkInv c snapshot [] .init where
  current := rfl
  last := by simp
  pointers := by simp [PointersOk, CompactionState.init]
  sublist := by simp [CompactionState.all, CompactionState.init]
  kept := by simp [CompactionState.all, CompactionState.init]
  outputs := by simp [CompactionState.all, CompactionState.init]

@[simp] theorem CompactionState.finish_all (st : CompactionState) : st.finish.all = st.all := by
  simp [CompactionState.finish, CompactionState.all]

theorem cutOutput_frame (c : Compaction) (st : CompactionState) (e : Entry) :
    (cutOutput c st e).all = st.all ∧ (cutOutput c st e).currentUserKey = st.currentUserKey ∧
      (cutOutput c st e).lastSequenceForKey = st.lastSequenceForKey ∧
      (cutOutput c st e).levelPointers = st.levelPointers := by
  by_cases hb : st.builder.isSome = true
  · rw [cutOutput, if_pos hb]
    dsimp only
    by_cases hstop : (shouldStopBefore c st e.key).1 = true
    · rw [if_pos hstop]
      exact ⟨CompactionState.finish_all _, rfl, rfl, rfl⟩
    · rw [if_neg hstop]
      exact ⟨rfl, rfl, rfl, rfl⟩
  · rw [cutOutput, if_neg hb]
    exact ⟨rfl, rfl, rfl, rfl⟩

/-- Dropping or keeping an entry moves the loop's own variables and the scans below only. -/
theorem dropEntry_frame (c : Compaction) (snapshot : ℕ) (st : CompactionState) (e : Entry) :
    ∃ user sequence pointers, (dropEntry c snapshot st e).2 =
      { st with currentUserKey := user, lastSequenceForKey := sequence, levelPointers := pointers } := by
  unfold dropEntry
  split
  · exact ⟨_, _, _, rfl⟩
  · dsimp only
    split_ifs <;> exact ⟨_, _, _, rfl⟩

theorem dropEntry_all (c : Compaction) (snapshot : ℕ) (st : CompactionState) (e : Entry) :
    (dropEntry c snapshot st e).2.all = st.all := by
  obtain ⟨user, sequence, pointers, heq⟩ := dropEntry_frame c snapshot st e
  rw [heq]
  rfl

/-- In a sorted list, an entry is shadowed by an earlier one exactly if the entry
    just before it is of the same user key and visible to every snapshot. -/
theorem shadowed_iff_last {snapshot : ℕ} {done : List Entry} {e : Entry}
    (hs : Entry.Sorted (done ++ [e])) :
    Shadowed snapshot done e ↔
      ∃ p, done.getLast? = some p ∧ p.userKey = e.userKey ∧ p.sequence ≤ snapshot := by
  constructor
  · rintro ⟨q, hq, hu, hk, hseq⟩
    obtain ⟨p, hp⟩ : ∃ p, done.getLast? = some p := by
      cases h : done.getLast? with
      | none => simp [List.getLast?_eq_none_iff.mp h] at hq
      | some p => exact ⟨p, rfl⟩
    obtain ⟨front, rfl⟩ := List.getLast?_eq_some_iff.mp hp
    have hpe : p.key < e.key := (List.pairwise_append.mp hs).2.2 p (by simp) e (by simp)
    have hqp : q.key ≤ p.key := by
      rcases List.mem_append.mp hq with hq | hq
      · exact ((List.pairwise_append.mp (List.pairwise_append.mp hs).1).2.2 q hq p (by simp)).le
      · rw [List.mem_singleton.mp hq]
    -- sandwiched between two versions of one user key
    have hpu : p.userKey = e.userKey := le_antisymm (InternalKey.userKey_le_of_lt hpe)
      (hu ▸ InternalKey.userKey_le_of_le hqp)
    refine ⟨p, hp, hpu, ?_⟩
    rcases hqp.eq_or_lt with heq | hlt
    · simpa [Entry.sequence, ← heq] using hseq
    · have htr := (InternalKey.lt_iff_of_userKey_eq (hu.trans hpu.symm)).mp hlt
      simp only [Entry.sequence, InternalKey.sequence] at hseq ⊢
      omega
  · rintro ⟨p, hp, hu, hseq⟩
    have hpm : p ∈ done := List.mem_of_mem_getLast? hp
    exact ⟨p, hpm, hu, (List.pairwise_append.mp hs).2.2 p hpm e (by simp), hseq⟩

section

variable {opts : Options} {c : Compaction} {snapshot : ℕ} {done : List Entry} {e : Entry}
  {st : CompactionState}
  (hd : ∀ level, 0 < level → Disjoint (c.inputVersion level))
  (hp : ∀ level, ∀ f ∈ c.inputVersion level, f.smallest ≤ f.largest)
  (hsnap : snapshot < kMaxSequenceNumber)

include hd hp hsnap

/-- The decision to drop, and what it leaves of the state. -/
theorem dropEntry_spec (h : WorkInv c snapshot done st) (hs : Entry.Sorted (done ++ [e]))
    (hw : e.key.WellFormed) :
    ((dropEntry c snapshot st e).1 = true ↔
      Shadowed snapshot done e ∨ DeadTombstone c snapshot e) ∧
    (dropEntry c snapshot st e).2.all = st.all ∧
    (dropEntry c snapshot st e).2.currentUserKey = some e.userKey ∧
    (dropEntry c snapshot st e).2.lastSequenceForKey = e.sequence ∧
    PointersOk c.inputVersion (dropEntry c snapshot st e).2.levelPointers e.userKey := by
  have hptr : PointersOk c.inputVersion st.levelPointers e.userKey :=
    h.pointers e.userKey fun p hpm => InternalKey.userKey_le_of_lt
      ((List.pairwise_append.mp hs).2.2 p hpm e (by simp))
  obtain ⟨t, htn, ht⟩ := parseInternalKey_wellFormed hw
  have htype : t = .deletion ↔ e.shown = none := by
    rw [Entry.shown_eq_none_iff hw, ← htn]
    cases t <;> simp
  have hlast : (if st.currentUserKey = some e.key.userKey then st.lastSequenceForKey
      else kMaxSequenceNumber) ≤ snapshot ↔ Shadowed snapshot done e := by
    rw [shadowed_iff_last hs, h.current]
    cases hg : done.getLast? with
    | none => simp [hsnap]
    | some p =>
      by_cases hu : p.userKey = e.userKey
      · simp [hu, h.last p hg, Entry.sequence]
      · simp [hu, hsnap]
  obtain ⟨hb1, hb2⟩ := isBaseLevelForKey_spec hd (fun level _ => hp level) hptr
  unfold dropEntry
  simp only [ht]
  by_cases hsh : Shadowed snapshot done e
  · rw [if_pos (hlast.mpr hsh)]
    exact ⟨by simp [hsh], rfl, rfl, rfl, hptr⟩
  · rw [if_neg (fun h => hsh (hlast.mp h))]
    by_cases hdel : t = .deletion ∧ e.key.sequence ≤ snapshot
    · rw [if_pos hdel]
      refine ⟨?_, rfl, rfl, rfl, hb2⟩
      simp only [hsh, false_or, DeadTombstone, htype.mp hdel.1, true_and]
      rw [hb1]
      exact ⟨fun hb => ⟨hdel.2, hb⟩, fun hb => hb.2⟩
    · rw [if_neg hdel]
      refine ⟨?_, rfl, rfl, rfl, hptr⟩
      simp only [Bool.false_eq_true, hsh, false_or, false_iff]
      exact fun hdt => hdel ⟨htype.mpr hdt.1, hdt.2.1⟩

omit hd hp hsnap in
/-- Adding an entry puts it last, in the open output or a new one. -/
theorem addEntry_spec (opts : Options) (c : Compaction) (number : ℕ) (st : CompactionState)
    (e : Entry) :
    ((addEntry opts c number st e).1.all.flatMap (·.entries) =
      st.all.flatMap (·.entries) ++ [e]) ∧
    ((∀ o ∈ st.all, OutputOk o) → ∀ o ∈ (addEntry opts c number st e).1.all, OutputOk o) ∧
    (addEntry opts c number st e).1.currentUserKey = st.currentUserKey ∧
    (addEntry opts c number st e).1.lastSequenceForKey = st.lastSequenceForKey ∧
    (addEntry opts c number st e).1.levelPointers = st.levelPointers ∧
    (addEntry opts c number st e).1.all.map (·.number) =
      st.all.map (·.number) ++ (if (addEntry opts c number st e).2 then [number] else []) := by
  have hall : (addEntry opts c number st e).1.all = st.outputs ++ [match st.builder with
      | none => ⟨number, e.key, e.key, [e]⟩
      | some o => { o with largest := e.key, entries := o.entries ++ [e] }] := by
    unfold addEntry
    dsimp only
    split_ifs
    · rw [CompactionState.finish_all]
      rfl
    · rfl
  rw [hall]
  refine ⟨?_, fun ho o hm => ?_, ?_, ?_, ?_, ?_⟩
  · cases hb : st.builder with
    | none => simp [CompactionState.all, hb]
    | some o => simp [CompactionState.all, hb]
  · cases hb : st.builder with
    | none =>
      rw [hb] at hm
      rcases List.mem_append.mp hm with hm | hm
      · exact ho o (List.mem_append_left _ hm)
      · rw [List.mem_singleton.mp hm]
        exact ⟨rfl, rfl⟩
    | some o' =>
      rw [hb] at hm
      rcases List.mem_append.mp hm with hm | hm
      · exact ho o (List.mem_append_left _ hm)
      · have ho' := ho o' (by simp [CompactionState.all, hb])
        rw [List.mem_singleton.mp hm]
        exact ho'.extend e
  · unfold addEntry
    dsimp only
    split_ifs <;> rfl
  · unfold addEntry
    dsimp only
    split_ifs <;> rfl
  · unfold addEntry
    dsimp only
    split_ifs <;> rfl
  · cases hb : st.builder with
    | none => simp [CompactionState.all, hb, addEntry]
    | some o => simp [CompactionState.all, hb, addEntry]

/-- One entry. -/
theorem WorkInv.step (h : WorkInv c snapshot done st) (hs : Entry.Sorted (done ++ [e]))
    (hw : e.key.WellFormed) (number : ℕ) :
    WorkInv c snapshot (done ++ [e]) (compactEntry opts c snapshot number st e).1 := by
  obtain ⟨hc1, hc2, hc3, hc4⟩ := cutOutput_frame c st e
  have hcut : WorkInv c snapshot done (cutOutput c st e) := by
    obtain ⟨h1, h2, h3, h4, h5, h6⟩ := h
    constructor
    · rwa [hc2]
    · rwa [hc3]
    · rwa [hc4]
    · rwa [hc1]
    · rwa [hc1]
    · rwa [hc1]
  obtain ⟨hdrop, hall, hcur, hlast, hptr⟩ := dropEntry_spec hd hp hsnap hcut hs hw
  set d := dropEntry c snapshot (cutOutput c st e) e with hdd
  -- an entry that comes later shadows nothing that is done
  have hbefore : ∀ x ∈ done, (Shadowed snapshot (done ++ [e]) x ↔ Shadowed snapshot done x) := by
    intro x hx
    constructor
    · rintro ⟨p, hpm, hu, hk, hseq⟩
      rcases List.mem_append.mp hpm with hpm | hpm
      · exact ⟨p, hpm, hu, hk, hseq⟩
      · rw [List.mem_singleton.mp hpm] at hk
        exact absurd (hk.trans ((List.pairwise_append.mp hs).2.2 x hx e (by simp))) (lt_irrefl _)
    · rintro ⟨p, hpm, hrest⟩
      exact ⟨p, List.mem_append_left _ hpm, hrest⟩
  have hself : Shadowed snapshot (done ++ [e]) e ↔ Shadowed snapshot done e := by
    constructor
    · rintro ⟨p, hpm, hu, hk, hseq⟩
      rcases List.mem_append.mp hpm with hpm | hpm
      · exact ⟨p, hpm, hu, hk, hseq⟩
      · rw [List.mem_singleton.mp hpm] at hk
        exact absurd hk (lt_irrefl _)
    · rintro ⟨p, hpm, hrest⟩
      exact ⟨p, List.mem_append_left _ hpm, hrest⟩
  have hptrs : ∀ (pointers : ℕ → ℕ), PointersOk c.inputVersion pointers e.userKey →
      ∀ u, (∀ p ∈ done ++ [e], p.userKey ≤ u) → PointersOk c.inputVersion pointers u := by
    intro pointers hok u hu level f hf
    exact (hok level f hf).trans_le (hu e (by simp))
  have hen : e ∉ done := fun hm =>
    lt_irrefl _ ((List.pairwise_append.mp hs).2.2 e hm e (by simp))
  unfold compactEntry
  simp only [← hdd]
  by_cases hdr : d.1 = true
  · rw [if_pos hdr]
    refine ⟨by simp [hcur], by simp [hlast], hptrs _ hptr, ?_, fun x => ?_, ?_⟩
    · rw [hall]
      exact hcut.sublist.trans (List.sublist_append_left _ _)
    · rw [hall, hcut.kept, List.mem_append, List.mem_singleton]
      constructor
      · rintro ⟨hx, hns, hnd⟩
        exact ⟨Or.inl hx, fun hh => hns ((hbefore x hx).mp hh), hnd⟩
      · rintro ⟨hx | rfl, hns, hnd⟩
        · exact ⟨hx, fun hh => hns ((hbefore x hx).mpr hh), hnd⟩
        · rcases hdrop.mp hdr with hh | hh
          · exact absurd (hself.mpr hh) hns
          · exact absurd hh hnd
    · rw [hall]
      exact hcut.outputs
  · rw [if_neg hdr]
    obtain ⟨ha1, ha2, ha3, ha4, ha5, -⟩ := addEntry_spec opts c number d.2 e
    have hnot := fun hh => hdr (hdrop.mpr hh)
    refine ⟨by rw [ha3]; simp [hcur], by rw [ha4]; simp [hlast], by rw [ha5]; exact hptrs _ hptr,
      ?_, fun x => ?_, ?_⟩
    · rw [ha1, hall]
      exact hcut.sublist.append_right _
    · rw [ha1, hall, List.mem_append, hcut.kept, List.mem_append, List.mem_singleton]
      constructor
      · rintro (⟨hx, hns, hnd⟩ | rfl)
        · exact ⟨Or.inl hx, fun hh => hns ((hbefore x hx).mp hh), hnd⟩
        · exact ⟨Or.inr rfl, fun hh => hnot (Or.inl (hself.mp hh)), fun hh => hnot (Or.inr hh)⟩
      · rintro ⟨hx | rfl, hns, hnd⟩
        · exact Or.inl ⟨hx, fun hh => hns ((hbefore x hx).mpr hh), hnd⟩
        · exact Or.inr rfl
    · refine ha2 ?_
      rw [hall]
      exact hcut.outputs

/-- The whole input. -/
theorem WorkInv.run (newFileNumber : ℕ → ℕ) :
    ∀ (es : List Entry) (opened : ℕ) {done : List Entry} {st : CompactionState},
      WorkInv c snapshot done st → Entry.Sorted (done ++ es) → (∀ e ∈ es, e.key.WellFormed) →
      WorkInv c snapshot (done ++ es)
        (compactEntries opts c snapshot newFileNumber opened st es) := by
  intro es
  induction es with
  | nil =>
    intro opened done st h _ _
    simpa [compactEntries] using h
  | cons e es ih =>
    intro opened done st h hs hw
    rw [List.append_cons] at hs ⊢
    refine ih _ (h.step hd hp hsnap (List.pairwise_append.mp hs).1 (hw e (by simp)) _) hs ?_
    exact fun x hx => hw x (List.mem_cons_of_mem _ hx)

end

/-! ## The numbers of the outputs -/

/-- A turn of the loop opens at most one output, under the number it is given. -/
theorem compactEntry_numbers (opts : Options) (c : Compaction) (snapshot number : ℕ)
    (st : CompactionState) (e : Entry) :
    (compactEntry opts c snapshot number st e).1.all.map (·.number) =
      st.all.map (·.number) ++
        if (compactEntry opts c snapshot number st e).2 then [number] else [] := by
  have hall : (dropEntry c snapshot (cutOutput c st e) e).2.all = st.all :=
    (dropEntry_all c snapshot _ e).trans (cutOutput_frame c st e).1
  by_cases hd : (dropEntry c snapshot (cutOutput c st e) e).1 = true
  · have heq : compactEntry opts c snapshot number st e =
        ((dropEntry c snapshot (cutOutput c st e) e).2, false) := if_pos hd
    rw [heq, hall]
    simp
  · have heq : compactEntry opts c snapshot number st e =
        addEntry opts c number (dropEntry c snapshot (cutOutput c st e) e).2 e := if_neg hd
    rw [heq, (addEntry_spec opts c number _ e).2.2.2.2.2, hall]

theorem compactEntries_numbers (opts : Options) (c : Compaction) (snapshot : ℕ)
    (newFileNumber : ℕ → ℕ) (es : List Entry) :
    ∀ (opened : ℕ) (st : CompactionState),
      st.all.map (·.number) = (List.range opened).map newFileNumber →
      ∃ n, (compactEntries opts c snapshot newFileNumber opened st es).all.map (·.number) =
        (List.range n).map newFileNumber := by
  induction es with
  | nil => exact fun opened st h => ⟨opened, h⟩
  | cons e es ih =>
    intro opened st h
    have hstep := compactEntry_numbers opts c snapshot (newFileNumber opened) st e
    rw [compactEntries]
    generalize compactEntry opts c snapshot (newFileNumber opened) st e = next at hstep
    refine ih _ next.1 ?_
    rw [hstep, h]
    split_ifs
    · rw [List.range_succ, List.map_append, List.map_singleton]
    · rw [List.append_nil]

end Ambar
