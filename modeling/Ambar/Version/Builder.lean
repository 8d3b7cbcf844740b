import Ambar.Version.Edit

/-!
# Installing and replaying version edits

Models of `VersionSet::Builder`, `log_and_apply`, `write_snapshot` and `recover`
(`src/version_set.cpp`, lines 466–763, 871–1019). Online, every edit is applied
to the current version with a builder of its own; at open, all edits of the
manifest are accumulated in one builder over the empty version and saved once.

* `Builder.mem_saveTo`, `Builder.mem_added_apply`, `Builder.deleted_apply`: what
  a builder holds.
* `Replays.step`: the invariant that ties the one builder to the online version.
* `recover_eq_installAll`: recovery reads back the online version.
-/

namespace Ambar

/-! ## The builder -/

/-- `BySmallestKey` (lines 557–566): by smallest key, ties by file number. -/
def bySmallestKey (f : FileMetaData) : InternalKey ×ₗ ℕ := toLex (f.smallest, f.number)

/-- `LevelState` (lines 570–573). -/
structure LevelState where
  deletedFiles : Finset ℕ
  addedFiles : Lib.OrderedSet bySmallestKey

/-- `VersionSet::Builder`: the state of each level. -/
abbrev Builder := ℕ → LevelState

namespace Builder

/-- A builder to which nothing has been applied. -/
def init : Builder := fun _ => ⟨∅, Lib.OrderedSet.empty⟩

/-- One deleted file of an edit (lines 495–497). -/
def delete (b : Builder) (p : ℕ × ℕ) : Builder :=
  Function.update b p.1 { b p.1 with deletedFiles := insert p.2 (b p.1).deletedFiles }

/-- One new file of an edit (lines 498–514). -/
def add (b : Builder) (p : ℕ × FileMetaData) : Builder :=
  Function.update b p.1
    ⟨(b p.1).deletedFiles.erase p.2.number, (b p.1).addedFiles.insert p.2⟩

/-- `Builder::apply` (lines 491–515). -/
def apply (b : Builder) (edit : VersionEdit) : Builder :=
  edit.newFiles.foldl add (edit.deletedFiles.toList.foldl delete b)

/-- `Builder::save_to` (lines 517–554) over the files of the base version:
    `maybe_add_file` skips the deleted ones. -/
def saveTo (b : Builder) (base : Levels) : Levels := fun level =>
  if level < kNumLevels then
    (Lib.mergeByKey bySmallestKey (base level) (b level).addedFiles.toList).filter
      fun f => f.number ∉ (b level).deletedFiles
  else []

end Builder

/-! ## The version set -/

/-- `Version` of an empty set. -/
def emptyLevels : Levels := fun _ => []

/-- `class VersionSet` (`src/version_set.hpp`, lines 131–268): the current version,
    the file its seeks have marked, and the counters. -/
structure VersionSet where
  files : Levels
  fileToCompact : Option (ℕ × FileMetaData)
  compactPointer : ℕ → Option InternalKey
  nextFileNumber : ℕ
  manifestFileNumber : ℕ
  lastSequence : ℕ
  logNumber : ℕ
  prevLogNumber : ℕ

/-- The name `comparator_->name` of `src/comparator.cpp`, line 104. -/
def internalComparatorName : Bytes := Bytes.ofName "ambar.InternalKeyComparator"

namespace VersionSet

/-- The constructor (lines 588–600) and the initial values of the counters. -/
def init : VersionSet where
  files := emptyLevels
  fileToCompact := none
  compactPointer := fun _ => none
  nextFileNumber := 2
  manifestFileNumber := 0
  lastSequence := 0
  logNumber := 0
  prevLogNumber := 0

/-- What `log_and_apply` adds to the caller's edit (lines 618–627). -/
def completeEdit (v : VersionSet) (edit : VersionEdit) : VersionEdit :=
  { edit with
    logNumber := some (edit.logNumber.getD v.logNumber)
    prevLogNumber := some (edit.prevLogNumber.getD v.prevLogNumber)
    nextFileNumber := some v.nextFileNumber
    lastSequence := some v.lastSequence }

/-- `compact_pointer_` after `Builder::apply` (lines 492–494). -/
def setPointers (pointer : ℕ → Option InternalKey) (edit : VersionEdit) :
    ℕ → Option InternalKey :=
  edit.compactPointers.foldl (fun pointer p => Function.update pointer p.1 (some p.2)) pointer

/-- The version `log_and_apply` builds (lines 629–634). -/
def applyEdit (v : VersionSet) (edit : VersionEdit) : Levels :=
  (Builder.init.apply edit).saveTo v.files

/-- `append_version` and the log numbers, once the manifest is written
    (lines 679–682). -/
def install (v : VersionSet) (edit : VersionEdit) (files : Levels) : VersionSet :=
  { v with
    files := files
    fileToCompact := none
    logNumber := edit.logNumber.getD v.logNumber
    prevLogNumber := edit.prevLogNumber.getD v.prevLogNumber }

/-- `log_and_apply` (lines 617–713) where every call it makes succeeds: the new
    state, and the edit whose encoding is the record it appends. -/
def logAndApply (v : VersionSet) (edit : VersionEdit) : VersionSet × VersionEdit :=
  let edit := v.completeEdit edit
  let files := v.applyEdit edit
  ({ v with compactPointer := setPointers v.compactPointer edit }.install edit files, edit)

/-- `write_snapshot` (lines 744–763): the edit it encodes. -/
def writeSnapshot (v : VersionSet) : VersionEdit :=
  { VersionEdit.empty with
    comparator := some internalComparatorName
    compactPointers := (List.range kNumLevels).flatMap fun level =>
      (v.compactPointer level).toList.map fun key => (level, key)
    newFiles := (List.range kNumLevels).flatMap fun level =>
      (v.files level).map fun f => (level, f) }

end VersionSet

/-! ## Recovery -/

/-- The variables of the loop of `VersionSet::recover` (lines 885–894). -/
structure Replay where
  builder : Builder
  compactPointer : ℕ → Option InternalKey
  nextFile : Option ℕ
  lastSequence : Option ℕ
  logNumber : Option ℕ
  prevLogNumber : Option ℕ

/-- The loop's start. -/
def Replay.init (v : VersionSet) : Replay :=
  ⟨Builder.init, v.compactPointer, none, none, none, none⟩

/-- One edit (lines 917–934). -/
def Replay.apply (r : Replay) (edit : VersionEdit) : Replay where
  builder := r.builder.apply edit
  compactPointer := VersionSet.setPointers r.compactPointer edit
  nextFile := edit.nextFileNumber.or r.nextFile
  lastSequence := edit.lastSequence.or r.lastSequence
  logNumber := edit.logNumber.or r.logNumber
  prevLogNumber := edit.prevLogNumber.or r.prevLogNumber

/-- The loop of `recover` over the records of the manifest (lines 896–935). -/
def replayManifest : Replay → List Bytes → Except Status Replay
  | r, [] => .ok r
  | r, record :: records =>
    match VersionEdit.decodeFrom record with
    | .error failure => .error (.corruption failure)
    | .ok edit =>
      match edit.comparator with
      | none => replayManifest (r.apply edit) records
      | some name =>
        if name ≠ internalComparatorName then
          .error (.invalidArgument ("database was written with comparator '" ++ name.toMessage ++
            "' but is being opened with '" ++ internalComparatorName.toMessage ++ "'"))
        else replayManifest (r.apply edit) records

/-- The end of `recover` (lines 961–1018), from a version set as constructed;
    `own` is the number of the manifest that was read. `mark_file_number_used`
    has no effect here, since `next_file_number_` is assigned below it. -/
def finishRecover (v : VersionSet) (own : ℕ) (r : Replay) : Except Status VersionSet :=
  match r.nextFile, r.logNumber, r.lastSequence with
  | none, _, _ => .error (.corruption "manifest holds no next-file-number record")
  | some _, none, _ => .error (.corruption "manifest holds no log-number record")
  | some _, some _, none => .error (.corruption "manifest holds no last-sequence record")
  | some nextFile, some logNumber, some lastSequence =>
    let nextFile := if nextFile ≤ own then own + 1 else nextFile
    .ok { files := r.builder.saveTo v.files
          fileToCompact := none
          compactPointer := r.compactPointer
          nextFileNumber := nextFile + 1
          manifestFileNumber := nextFile
          lastSequence := lastSequence
          logNumber := logNumber
          prevLogNumber := r.prevLogNumber.getD 0 }

/-- `VersionSet::recover` (lines 871–1019) on the whole records of the manifest
    numbered `own`. -/
def recover (own : ℕ) (records : List Bytes) : Except Status VersionSet :=
  match replayManifest (Replay.init VersionSet.init) records with
  | .error status => .error status
  | .ok r => finishRecover VersionSet.init own r

/-! ## What a builder holds -/

/-- The levels and numbers of the files an edit adds. -/
def VersionEdit.addedPairs (edit : VersionEdit) : List (ℕ × ℕ) :=
  edit.newFiles.map fun p => (p.1, p.2.number)

theorem VersionEdit.mem_addedPairs {edit : VersionEdit} {level : ℕ} {f : FileMetaData}
    (h : (level, f) ∈ edit.newFiles) : (level, f.number) ∈ edit.addedPairs :=
  List.mem_map.mpr ⟨(level, f), h, rfl⟩

namespace Builder

theorem foldl_delete (dels : List (ℕ × ℕ)) (b : Builder) (level : ℕ) :
    (dels.foldl delete b level).addedFiles = (b level).addedFiles ∧
      ∀ n, n ∈ (dels.foldl delete b level).deletedFiles ↔
        n ∈ (b level).deletedFiles ∨ (level, n) ∈ dels := by
  induction dels generalizing b with
  | nil => simp
  | cons p dels ih =>
    obtain ⟨l, m⟩ := p
    rw [List.foldl_cons, (ih _).1]
    refine ⟨?_, fun n => ?_⟩
    · by_cases hl : level = l
      · subst hl
        simp [delete]
      · simp [delete, hl]
    · rw [(ih _).2]
      by_cases hl : level = l
      · subst hl
        simp only [delete, Function.update_self, Finset.mem_insert, List.mem_cons, Prod.mk.injEq,
          true_and]
        tauto
      · simp [delete, hl]

theorem foldl_add_deleted (news : List (ℕ × FileMetaData)) (b : Builder) (level n : ℕ) :
    n ∈ (news.foldl add b level).deletedFiles ↔
      n ∈ (b level).deletedFiles ∧ ∀ f, (level, f) ∈ news → f.number ≠ n := by
  induction news generalizing b with
  | nil => simp
  | cons p news ih =>
    obtain ⟨l, g⟩ := p
    rw [List.foldl_cons, ih]
    by_cases hl : level = l
    · subst hl
      simp only [add, Function.update_self, Finset.mem_erase, List.mem_cons, Prod.mk.injEq,
        true_and]
      constructor
      · rintro ⟨⟨h1, h2⟩, h3⟩
        refine ⟨h2, fun f hf => ?_⟩
        rcases hf with rfl | hf
        · exact h1.symm
        · exact h3 f hf
      · rintro ⟨h1, h2⟩
        exact ⟨⟨(h2 g (Or.inl rfl)).symm, h1⟩, fun f hf => h2 f (Or.inr hf)⟩
    · simp [add, hl]

/-- Files of new numbers are added, whatever their keys. -/
theorem mem_foldl_add (news : List (ℕ × FileMetaData)) (b : Builder) (level : ℕ) (f : FileMetaData)
    (hnodup : (news.map fun p => (p.1, p.2.number)).Nodup)
    (hfresh : ∀ g ∈ (b level).addedFiles, (level, g.number) ∉ news.map fun p => (p.1, p.2.number)) :
    f ∈ (news.foldl add b level).addedFiles ↔ f ∈ (b level).addedFiles ∨ (level, f) ∈ news := by
  induction news generalizing b with
  | nil => simp
  | cons p news ih =>
    obtain ⟨l, g⟩ := p
    obtain ⟨hg, hrest⟩ := List.nodup_cons.mp hnodup
    rw [List.foldl_cons]
    by_cases hl : level = l
    · subst hl
      have hne : ∀ c ∈ (b level).addedFiles.toList, bySmallestKey c ≠ bySmallestKey g := by
        intro c hc heq
        have : c.number = g.number := congrArg (fun k => (ofLex k).2) heq
        exact hfresh c hc (by simp [this])
      have hmem : ∀ c, c ∈ (add b (level, g) level).addedFiles ↔ c = g ∨ c ∈ (b level).addedFiles := by
        intro c
        simp only [add, Function.update_self, Lib.OrderedSet.mem_def, Lib.OrderedSet.insert]
        exact Lib.mem_insertByKey hne
      rw [ih _ hrest ?_, hmem, List.mem_cons, Prod.mk.injEq]
      · tauto
      · intro c hc
        rcases (hmem c).mp hc with rfl | hc
        · exact hg
        · exact fun h => hfresh c hc (List.mem_cons_of_mem _ h)
    · have hsame : (add b (l, g) level).addedFiles = (b level).addedFiles := by
        simp [add, hl]
      rw [ih _ hrest ?_, hsame]
      · simp [hl]
      · intro c hc
        rw [hsame] at hc
        exact fun h => hfresh c hc (List.mem_cons_of_mem _ h)

variable {b : Builder} {edit : VersionEdit} {level : ℕ} {f : FileMetaData}

theorem deleted_apply {n : ℕ} :
    n ∈ (b.apply edit level).deletedFiles ↔
      (n ∈ (b level).deletedFiles ∨ (level, n) ∈ edit.deletedFiles) ∧
        ∀ f, (level, f) ∈ edit.newFiles → f.number ≠ n := by
  rw [apply, foldl_add_deleted, (foldl_delete _ _ _).2]
  rfl

theorem mem_added_apply (hnodup : edit.addedPairs.Nodup)
    (hfresh : ∀ g ∈ (b level).addedFiles, (level, g.number) ∉ edit.addedPairs) :
    f ∈ (b.apply edit level).addedFiles ↔
      f ∈ (b level).addedFiles ∨ (level, f) ∈ edit.newFiles := by
  rw [apply, mem_foldl_add _ _ _ _ hnodup, (foldl_delete _ _ _).1]
  rw [(foldl_delete _ _ _).1]
  exact hfresh

theorem mem_saveTo {base : Levels} :
    f ∈ b.saveTo base level ↔
      level < kNumLevels ∧ (f ∈ base level ∨ f ∈ (b level).addedFiles) ∧
        f.number ∉ (b level).deletedFiles := by
  unfold saveTo
  split_ifs with h
  · simp [h, Lib.mem_mergeByKey, Lib.OrderedSet.mem_def]
  · simp [h]

theorem sortedBy_saveTo {base : Levels} (hb : Lib.SortedBy bySmallestKey (base level))
    (hne : ∀ g ∈ base level, ∀ a ∈ (b level).addedFiles, bySmallestKey g ≠ bySmallestKey a) :
    Lib.SortedBy bySmallestKey (b.saveTo base level) := by
  unfold saveTo
  split_ifs with h
  · exact (Lib.sortedBy_mergeByKey hb (b level).addedFiles.sorted hne).sublist List.filter_sublist
  · exact List.Pairwise.nil

end Builder

/-- The edit adds no number to a level that holds it, and none twice. -/
structure VersionEdit.Fresh (edit : VersionEdit) (files : Levels) : Prop where
  nodup : edit.addedPairs.Nodup
  notMem : ∀ level, ∀ f ∈ files level, (level, f.number) ∉ edit.addedPairs

/-- One edit applied to the current version: what was there and is not deleted,
    and what the edit adds. -/
theorem VersionSet.mem_applyEdit {v : VersionSet} {edit : VersionEdit} (hf : edit.Fresh v.files)
    {level : ℕ} {f : FileMetaData} :
    f ∈ v.applyEdit edit level ↔
      level < kNumLevels ∧ (f ∈ v.files level ∧ (level, f.number) ∉ edit.deletedFiles ∨
        (level, f) ∈ edit.newFiles) := by
  have hadd : f ∈ (Builder.init.apply edit level).addedFiles ↔ (level, f) ∈ edit.newFiles := by
    rw [Builder.mem_added_apply hf.nodup (fun g hg => absurd hg Lib.OrderedSet.not_mem_empty)]
    simp [Builder.init]
  have hdel : f.number ∈ (Builder.init.apply edit level).deletedFiles ↔
      (level, f.number) ∈ edit.deletedFiles ∧
        ∀ g, (level, g) ∈ edit.newFiles → g.number ≠ f.number := by
    rw [Builder.deleted_apply]
    simp [Builder.init]
  rw [VersionSet.applyEdit, Builder.mem_saveTo, hadd, hdel]
  refine and_congr_right fun _ => ?_
  constructor
  · rintro ⟨hmem | hmem, hnot⟩
    · refine Or.inl ⟨hmem, fun hd => hnot ⟨hd, fun g hg hn => ?_⟩⟩
      exact hf.notMem level f hmem (hn ▸ VersionEdit.mem_addedPairs hg)
    · exact Or.inr hmem
  · rintro (⟨hmem, hnot⟩ | hmem)
    · exact ⟨Or.inl hmem, fun h => hnot h.1⟩
    · exact ⟨Or.inr hmem, fun h => h.2 f hmem rfl⟩

theorem VersionSet.sortedBy_applyEdit {v : VersionSet} {edit : VersionEdit}
    (hf : edit.Fresh v.files) {level : ℕ} (hs : Lib.SortedBy bySmallestKey (v.files level)) :
    Lib.SortedBy bySmallestKey (v.applyEdit edit level) := by
  refine Builder.sortedBy_saveTo hs fun g hg a ha heq => ?_
  rw [Builder.mem_added_apply hf.nodup (fun g hg => absurd hg Lib.OrderedSet.not_mem_empty)] at ha
  have hnum : g.number = a.number := congrArg (fun k => (ofLex k).2) heq
  rcases ha with ha | ha
  · exact Lib.OrderedSet.not_mem_empty ha
  · exact hf.notMem level g hg (hnum ▸ VersionEdit.mem_addedPairs ha)

/-! ## Recovery reads back the online version -/

/-- A call of `log_and_apply`: the caller's edit, which names no comparator, and
    the counters it finds. -/
structure Install where
  edit : VersionEdit
  nextFileNumber : ℕ
  lastSequence : ℕ
  comparator_eq_none : edit.comparator = none

/-- One call: the new state and the edit recorded. -/
def VersionSet.runInstall (v : VersionSet) (i : Install) : VersionSet × VersionEdit :=
  { v with nextFileNumber := i.nextFileNumber, lastSequence := i.lastSequence }.logAndApply i.edit

/-- A sequence of calls: the last state and the edits recorded. -/
def VersionSet.installAll (v : VersionSet) : List Install → VersionSet × List VersionEdit
  | [] => (v, [])
  | i :: is =>
    let (v', edit) := v.runInstall i
    let (v'', edits) := v'.installAll is
    (v'', edit :: edits)

/-- The abstract meaning of a sequence of edits: the files added to a level and
    not deleted from it since. -/
def Live : List VersionEdit → ℕ → FileMetaData → Prop
  | [], _, _ => False
  | edit :: older, level, f =>
    (level, f) ∈ edit.newFiles ∨ Live older level f ∧ (level, f.number) ∉ edit.deletedFiles

/-- The one builder of recovery and the online version after the same edits,
    listed newest first. -/
structure Replays (edits : List VersionEdit) (b : Builder) (files : Levels) : Prop where
  live : ∀ level f, f ∈ files level ↔ level < kNumLevels ∧ Live edits level f
  built : ∀ level, level < kNumLevels → ∀ f,
    f ∈ files level ↔ f ∈ (b level).addedFiles ∧ f.number ∉ (b level).deletedFiles
  sorted : ∀ level, Lib.SortedBy bySmallestKey (files level)
  added : ∀ level, ∀ f ∈ (b level).addedFiles, (level, f.number) ∈ edits.flatMap (·.addedPairs)

theorem Replays.saveTo_eq {edits : List VersionEdit} {b : Builder} {files : Levels}
    (h : Replays edits b files) : b.saveTo emptyLevels = files := by
  funext level
  refine Lib.SortedBy.ext
    (Builder.sortedBy_saveTo List.Pairwise.nil (by simp [emptyLevels])) (h.sorted level) fun f => ?_
  rw [Builder.mem_saveTo]
  by_cases hl : level < kNumLevels
  · rw [h.built level hl]
    simp [emptyLevels, hl]
  · simp [hl, h.live]

/-- One more edit that adds no number again keeps the two in step. -/
theorem Replays.step {edits : List VersionEdit} {b : Builder} {v : VersionSet}
    (h : Replays edits b v.files) {edit : VersionEdit}
    (hnew : (edit.addedPairs ++ edits.flatMap (·.addedPairs)).Nodup) :
    Replays (edit :: edits) (b.apply edit) (v.applyEdit edit) := by
  obtain ⟨hnodup, -, hdisj⟩ := List.nodup_append.mp hnew
  have hfreshB : ∀ level, ∀ g ∈ (b level).addedFiles, (level, g.number) ∉ edit.addedPairs :=
    fun level g hg hm => hdisj _ hm _ (h.added level g hg) rfl
  have hinB : ∀ level, ∀ f ∈ v.files level, f ∈ (b level).addedFiles := by
    intro level f hf
    have hl := ((h.live level f).mp hf).1
    exact ((h.built level hl f).mp hf).1
  have hfresh : edit.Fresh v.files :=
    ⟨hnodup, fun level f hf => hfreshB level f (hinB level f hf)⟩
  refine ⟨fun level f => ?_, fun level hl f => ?_, fun level => ?_, fun level f hf => ?_⟩
  · rw [VersionSet.mem_applyEdit hfresh, h.live, Live]
    tauto
  · rw [VersionSet.mem_applyEdit hfresh, h.built level hl,
      Builder.mem_added_apply hnodup (hfreshB level), Builder.deleted_apply]
    simp only [hl, true_and]
    constructor
    · rintro (⟨⟨hadd, hnot⟩, hdel⟩ | hmem)
      · exact ⟨Or.inl hadd, fun hd => hd.1.elim hnot hdel⟩
      · exact ⟨Or.inr hmem, fun hd => hd.2 f hmem rfl⟩
    · rintro ⟨hadd | hmem, hnot⟩
      · -- an old file's number is not among the new ones, so nothing revived it
        have hold : ∀ g, (level, g) ∈ edit.newFiles → g.number ≠ f.number := fun g hg hn =>
          hfreshB level f hadd (hn ▸ VersionEdit.mem_addedPairs hg)
        exact Or.inl ⟨⟨hadd, fun hd => hnot ⟨Or.inl hd, hold⟩⟩, fun hd => hnot ⟨Or.inr hd, hold⟩⟩
      · exact Or.inr hmem
  · exact VersionSet.sortedBy_applyEdit hfresh (h.sorted level)
  · rw [Builder.mem_added_apply hnodup (hfreshB level)] at hf
    rw [List.flatMap_cons, List.mem_append]
    rcases hf with hf | hf
    · exact Or.inr (h.added level f hf)
    · exact Or.inl (VersionEdit.mem_addedPairs hf)

theorem VersionSet.mem_writeSnapshot {v : VersionSet} {level : ℕ} {f : FileMetaData} :
    (level, f) ∈ v.writeSnapshot.newFiles ↔ level < kNumLevels ∧ f ∈ v.files level := by
  simp [VersionSet.writeSnapshot]

theorem replays_nil : Replays [] Builder.init emptyLevels where
  live := by simp [emptyLevels, Live]
  built := by simp [emptyLevels, Builder.init]
  sorted := fun _ => List.Pairwise.nil
  added := by simp [Builder.init]

/-- The files of a version set that came out of `recover`. -/
structure VersionSet.Saved (v : VersionSet) : Prop where
  sorted : ∀ level, Lib.SortedBy bySmallestKey (v.files level)
  levels : ∀ level f, f ∈ v.files level → level < kNumLevels

theorem recover_saved {own : ℕ} {records : List Bytes} {v : VersionSet}
    (h : recover own records = .ok v) : v.Saved := by
  obtain ⟨b, hb⟩ : ∃ b : Builder, v.files = b.saveTo emptyLevels := by
    unfold recover at h
    split at h
    · cases h
    · unfold finishRecover at h
      split at h
      · cases h
      · cases h
      · cases h
      · cases h
        exact ⟨_, rfl⟩
  refine ⟨fun level => ?_, fun level f hf => ?_⟩
  · rw [hb]
    exact Builder.sortedBy_saveTo List.Pairwise.nil (by simp [emptyLevels])
  · rw [hb, Builder.mem_saveTo] at hf
    exact hf.1

/-- The snapshot record alone gives back the version it was taken of. -/
theorem replays_writeSnapshot {v : VersionSet} (hv : v.Saved)
    (hnew : v.writeSnapshot.addedPairs.Nodup) :
    Replays [v.writeSnapshot] (Builder.init.apply v.writeSnapshot) v.files := by
  have h : Replays [v.writeSnapshot] _ (VersionSet.init.applyEdit v.writeSnapshot) :=
    replays_nil.step (by simpa using hnew)
  have hfiles : VersionSet.init.applyEdit v.writeSnapshot = v.files := by
    funext level
    refine Lib.SortedBy.ext (h.sorted level) (hv.sorted level) fun f => ?_
    rw [h.live, Live, VersionSet.mem_writeSnapshot]
    simp only [Live, false_and, or_false]
    exact ⟨fun h => h.2.2, fun h => ⟨hv.levels level f h, hv.levels level f h, h⟩⟩
  rwa [hfiles] at h

theorem replays_installAll (installs : List Install) :
    ∀ {edits : List VersionEdit} {b : Builder} {v : VersionSet}, Replays edits b v.files →
      ((v.installAll installs).2.flatMap (·.addedPairs) ++ edits.flatMap (·.addedPairs)).Nodup →
      Replays ((v.installAll installs).2.reverse ++ edits)
        ((v.installAll installs).2.foldl Builder.apply b) (v.installAll installs).1.files := by
  induction installs with
  | nil => exact fun h _ => h
  | cons i is ih =>
    intro edits b v h hnew
    simp only [VersionSet.installAll, List.flatMap_cons, List.append_assoc] at hnew ⊢
    rw [List.reverse_cons, List.append_assoc, List.singleton_append, List.foldl_cons]
    refine ih (h.step ?_) ?_
    · have hsub := List.Nodup.sublist (List.Sublist.append_left (List.sublist_append_right _ _) _) hnew
      exact hsub
    · rw [List.flatMap_cons]
      refine (List.Perm.nodup_iff ?_).mp hnew
      rw [← List.append_assoc, ← List.append_assoc]
      exact List.Perm.append_right _ List.perm_append_comm

/-- The records of edits that fit are read back one by one. -/
theorem replayManifest_encodeTo {edits : List VersionEdit} (hfits : ∀ e ∈ edits, e.Fits)
    (hcmp : ∀ e ∈ edits, e.comparator = none ∨ e.comparator = some internalComparatorName)
    (r : Replay) :
    replayManifest r (edits.map VersionEdit.encodeTo) = .ok (edits.foldl Replay.apply r) := by
  induction edits generalizing r with
  | nil => rfl
  | cons e edits ih =>
    rw [List.map_cons, replayManifest, VersionEdit.decodeFrom_encodeTo (hfits e (by simp))]
    have hrest := ih (fun e he => hfits e (List.mem_cons_of_mem _ he))
      (fun e he => hcmp e (List.mem_cons_of_mem _ he)) (r.apply e)
    rcases hcmp e (by simp) with hc | hc
    · simp only [hc, hrest, List.foldl_cons]
    · simp only [hc, ne_eq, not_true_eq_false, if_false, hrest, List.foldl_cons]

theorem recover_encodeTo {edits : List VersionEdit} (hfits : ∀ e ∈ edits, e.Fits)
    (hcmp : ∀ e ∈ edits, e.comparator = none ∨ e.comparator = some internalComparatorName)
    (own : ℕ) :
    recover own (edits.map VersionEdit.encodeTo) =
      finishRecover VersionSet.init own (edits.foldl Replay.apply (Replay.init VersionSet.init)) := by
  rw [recover, replayManifest_encodeTo hfits hcmp]

theorem builder_foldl_apply (edits : List VersionEdit) (r : Replay) :
    (edits.foldl Replay.apply r).builder = edits.foldl Builder.apply r.builder := by
  induction edits generalizing r with
  | nil => rfl
  | cons e edits ih =>
    rw [List.foldl_cons, ih, List.foldl_cons]
    rfl

/-- Every edit `log_and_apply` records names no comparator and sets the numbers. -/
theorem installAll_recorded (installs : List Install) (v : VersionSet) :
    ∀ e ∈ (v.installAll installs).2, e.comparator = none ∧ e.nextFileNumber.isSome ∧
      e.lastSequence.isSome ∧ e.logNumber.isSome := by
  induction installs generalizing v with
  | nil => simp [VersionSet.installAll]
  | cons i is ih =>
    intro e he
    simp only [VersionSet.installAll, List.mem_cons] at he
    rcases he with rfl | he
    · exact ⟨i.comparator_eq_none, rfl, rfl, rfl⟩
    · exact ih _ e he

/-- The numbers read back are those of the last edit. -/
theorem foldl_apply_append_numbers (edits : List VersionEdit) (last : VersionEdit) (r : Replay)
    (hn : last.nextFileNumber.isSome) (hs : last.lastSequence.isSome) (hl : last.logNumber.isSome) :
    ((edits ++ [last]).foldl Replay.apply r).nextFile = last.nextFileNumber ∧
      ((edits ++ [last]).foldl Replay.apply r).lastSequence = last.lastSequence ∧
      ((edits ++ [last]).foldl Replay.apply r).logNumber = last.logNumber := by
  obtain ⟨n, hn⟩ := Option.isSome_iff_exists.mp hn
  obtain ⟨s, hs⟩ := Option.isSome_iff_exists.mp hs
  obtain ⟨l, hl⟩ := Option.isSome_iff_exists.mp hl
  simp [Replay.apply, hn, hs, hl]

/-- The records of the manifest that a session leaves behind. -/
def VersionSet.manifest (v : VersionSet) (installs : List Install) : List VersionEdit :=
  v.writeSnapshot :: (v.installAll installs).2

/-- **Recovery reads back the online version.** From any version set that came out
    of `recover`, after any calls of `log_and_apply` that add no number to a level
    again, the manifest's records give the same files in the same order at every
    level and the numbers of the last record; the lists are sorted by smallest key
    and number and hold the files added and not deleted since. -/
theorem recover_eq_installAll {own₀ : ℕ} {records₀ : List Bytes} {v : VersionSet}
    (hopen : recover own₀ records₀ = .ok v) (own : ℕ) (installs : List Install)
    (hne : installs ≠ [])
    (hnew : ((v.manifest installs).flatMap (·.addedPairs)).Nodup)
    (hfits : ∀ edit ∈ v.manifest installs, edit.Fits) :
    ∃ r v' last,
      replayManifest (Replay.init VersionSet.init)
        ((v.manifest installs).map VersionEdit.encodeTo) = .ok r ∧
      recover own ((v.manifest installs).map VersionEdit.encodeTo) = .ok v' ∧
      (v.installAll installs).2.getLast? = some last ∧
      v'.files = (v.installAll installs).1.files ∧
      r.nextFile = last.nextFileNumber ∧
      r.lastSequence = last.lastSequence ∧ last.lastSequence = some v'.lastSequence ∧
      r.logNumber = last.logNumber ∧ last.logNumber = some v'.logNumber ∧
      ∀ level, Lib.SortedBy bySmallestKey (v'.files level) ∧
        ∀ f, f ∈ v'.files level ↔
          level < kNumLevels ∧ Live (v.manifest installs).reverse level f := by
  have hrec := installAll_recorded installs v
  -- the last record
  obtain ⟨front, last, hlast⟩ : ∃ front last, (v.installAll installs).2 = front ++ [last] := by
    rcases List.eq_nil_or_concat (v.installAll installs).2 with hnil | ⟨front, last, h⟩
    · cases installs with
      | nil => exact absurd rfl hne
      | cons i is => simp [VersionSet.installAll] at hnil
    · exact ⟨front, last, by rw [h, List.concat_eq_append]⟩
  obtain ⟨-, hn, hs, hl⟩ := hrec last (by simp [hlast])
  have hcmp : ∀ e ∈ v.manifest installs,
      e.comparator = none ∨ e.comparator = some internalComparatorName := by
    intro e he
    rcases List.mem_cons.mp he with rfl | he
    · exact Or.inr rfl
    · exact Or.inl (hrec e he).1
  have hnum := foldl_apply_append_numbers (v.writeSnapshot :: front) last
    (Replay.init VersionSet.init) hn hs hl
  rw [List.cons_append, ← hlast] at hnum
  -- the builder is in step with the online version
  have hsaved := recover_saved hopen
  rw [VersionSet.manifest, List.flatMap_cons] at hnew
  have hstep := replays_installAll installs (replays_writeSnapshot hsaved
    (List.nodup_append.mp hnew).1) (by
      simpa using (List.perm_append_comm.nodup_iff).mp hnew)
  obtain ⟨n, hn⟩ := Option.isSome_iff_exists.mp hn
  obtain ⟨s, hs⟩ := Option.isSome_iff_exists.mp hs
  obtain ⟨l, hl⟩ := Option.isSome_iff_exists.mp hl
  set r := (v.manifest installs).foldl Replay.apply (Replay.init VersionSet.init) with hr
  obtain ⟨hn', hs', hl'⟩ := hnum
  have hfiles : r.builder.saveTo emptyLevels = (v.installAll installs).1.files := by
    rw [hr, builder_foldl_apply]
    exact hstep.saveTo_eq
  have hr1 : r.nextFile = some n := hn'.trans hn
  have hr2 : r.lastSequence = some s := hs'.trans hs
  have hr3 : r.logNumber = some l := hl'.trans hl
  refine ⟨r, _, last, replayManifest_encodeTo hfits hcmp _,
    by rw [recover_encodeTo hfits hcmp, finishRecover, hr1, hr2, hr3], by simp [hlast], hfiles, hn', hs', hs, hl', hl, fun level => ?_⟩
  dsimp only
  rw [show VersionSet.init.files = emptyLevels from rfl, hfiles]
  refine ⟨hstep.sorted level, fun f => ?_⟩
  rw [hstep.live, VersionSet.manifest, List.reverse_cons]

/-- The edit `DBImpl::new_db` writes (`src/db_impl.cpp`, lines 210–214). -/
def newDbEdit : VersionEdit :=
  { VersionEdit.empty with
    comparator := some internalComparatorName
    logNumber := some 0
    nextFileNumber := some 2
    lastSequence := some 0 }

/-- The version set of a database just created. -/
def newDbVersions : VersionSet :=
  { VersionSet.init with nextFileNumber := 3, manifestFileNumber := 2 }

theorem recover_newDb : recover 1 [newDbEdit.encodeTo] = .ok newDbVersions := by
  have hrec := @recover_encodeTo [newDbEdit] (by decide)
    (fun e he => Or.inr (by rw [List.mem_singleton.mp he]; rfl)) 1
  rw [List.map_singleton] at hrec
  rw [hrec]
  have hfiles : (Builder.init.apply newDbEdit).saveTo emptyLevels = emptyLevels := by
    funext level
    refine List.eq_nil_iff_forall_not_mem.mpr fun f hf => ?_
    rw [Builder.mem_saveTo] at hf
    rcases hf.2.1 with h | h
    · simp [emptyLevels] at h
    · exact Lib.OrderedSet.not_mem_empty h
  simp [finishRecover, Replay.apply, Replay.init, newDbVersions, VersionSet.setPointers,
    VersionSet.init, newDbEdit, VersionEdit.empty] at hfiles ⊢
  exact hfiles

/-- The open's own edit, then a flush into level 1 and the file's move to level 2. -/
def sampleInstalls : List Install :=
  let file : FileMetaData :=
    ⟨4, 100, makeInternalKey [97] 1 .value, makeInternalKey [98] 2 .deletion⟩
  [⟨{ VersionEdit.empty with logNumber := some 3, prevLogNumber := some 0 }, 4, 0, rfl⟩,
    ⟨VersionEdit.empty.addFile 1 file, 5, 2, rfl⟩,
    ⟨((VersionEdit.empty.removeFile 1 4).addFile 2 file).setCompactPointer 1 file.largest, 5, 2,
      rfl⟩]

theorem recover_sampleInstalls :
    ∃ r v' last,
      replayManifest (Replay.init VersionSet.init)
        ((newDbVersions.manifest sampleInstalls).map VersionEdit.encodeTo) = .ok r ∧
      recover 2 ((newDbVersions.manifest sampleInstalls).map VersionEdit.encodeTo) = .ok v' ∧
      (newDbVersions.installAll sampleInstalls).2.getLast? = some last ∧
      v'.files = (newDbVersions.installAll sampleInstalls).1.files ∧
      r.nextFile = last.nextFileNumber ∧
      r.lastSequence = last.lastSequence ∧ last.lastSequence = some v'.lastSequence ∧
      r.logNumber = last.logNumber ∧ last.logNumber = some v'.logNumber ∧
      ∀ level, Lib.SortedBy bySmallestKey (v'.files level) ∧
        ∀ f, f ∈ v'.files level ↔
          level < kNumLevels ∧ Live (newDbVersions.manifest sampleInstalls).reverse level f :=
  recover_eq_installAll recover_newDb 2 sampleInstalls (by decide) (by decide) (by decide)

end Ambar
