import Ambar.Version.Builder

/-!
# What a manifest says

The edits in a manifest determine a version and three numbers. Here is what an
engine keeps true of its own manifest: a file number is added to a level once, the
levels of a number only grow (a trivial move), and no number is in a version twice.
Under these, one more edit takes the version read back to the version the online
builder makes.

* `Listed.append`: one more edit.
* `Reads.append`: the same with the numbers of the edit.
* `Reads.recover`: what recovery makes of such a manifest.
-/

namespace Ambar

/-- The levels and numbers of all files that edits add. -/
def allPairs (edits : List VersionEdit) : List (ℕ × ℕ) := edits.flatMap (·.addedPairs)

theorem allPairs_append (edits : List VersionEdit) (edit : VersionEdit) :
    allPairs (edits ++ [edit]) = allPairs edits ++ edit.addedPairs := by
  simp [allPairs]

/-- The edits list the files of a version. -/
structure Listed (edits : List VersionEdit) (files : Levels) : Prop where
  replays : Replays edits.reverse (edits.foldl Builder.apply Builder.init) files
  nodup : (allPairs edits).Nodup
  top : ∀ p ∈ allPairs edits, ∀ level, ∀ f ∈ files level, f.number = p.2 → p.1 ≤ level
  unique : ∀ i j f g, f ∈ files i → g ∈ files j → f.number = g.number → i = j ∧ f = g

/-- The edit names every file it adds once; the file is new, or it comes from the level
    above, where the edit deletes it. -/
structure VersionEdit.Extends (edit : VersionEdit) (edits : List VersionEdit) (files : Levels) :
    Prop where
  nodup : (edit.newFiles.map fun p => p.2.number).Nodup
  new : ∀ q ∈ edit.newFiles, (∀ p ∈ allPairs edits, p.2 ≠ q.2.number) ∨
    ∃ level, q.1 = level + 1 ∧ q.2 ∈ files level ∧ (level, q.2.number) ∈ edit.deletedFiles

namespace Listed

variable {edits : List VersionEdit} {files : Levels}

theorem mem_allPairs (h : Listed edits files) {level : ℕ} {f : FileMetaData}
    (hf : f ∈ files level) : (level, f.number) ∈ allPairs edits := by
  have hl := ((h.replays.live level f).mp hf).1
  have hadd := ((h.replays.built level hl f).mp hf).1
  have := h.replays.added level f hadd
  simpa [allPairs] using this

theorem level_lt (h : Listed edits files) {level : ℕ} {f : FileMetaData}
    (hf : f ∈ files level) : level < kNumLevels :=
  ((h.replays.live level f).mp hf).1

theorem sorted (h : Listed edits files) (level : ℕ) : Lib.SortedBy bySmallestKey (files level) :=
  h.replays.sorted level

section Append

variable {v : VersionSet} {edit : VersionEdit} (h : Listed edits v.files)
  (he : edit.Extends edits v.files)

include h he

/-- No added pair was there. -/
theorem notMem_allPairs {q : ℕ × FileMetaData} (hq : q ∈ edit.newFiles) :
    (q.1, q.2.number) ∉ allPairs edits := by
  intro hm
  rcases he.new q hq with hnew | ⟨level, hl, hf, -⟩
  · exact hnew _ hm rfl
  · have := h.top _ hm level q.2 hf rfl
    simp only at this
    omega

theorem fresh : edit.Fresh v.files where
  nodup := by
    refine List.Nodup.of_map Prod.snd ?_
    rw [VersionEdit.addedPairs, List.map_map]
    exact he.nodup
  notMem := by
    intro level f hf hm
    obtain ⟨q, hq, heq⟩ := List.mem_map.mp hm
    obtain ⟨rfl, hn⟩ := Prod.mk.inj heq
    exact h.notMem_allPairs he hq (hn ▸ h.mem_allPairs hf)

/-- A file that stays has the number of no added file. -/
theorem number_ne {i : ℕ} {f : FileMetaData} (hf : f ∈ v.files i)
    (hd : (i, f.number) ∉ edit.deletedFiles) {q : ℕ × FileMetaData} (hq : q ∈ edit.newFiles) :
    f.number ≠ q.2.number := by
  intro heq
  rcases he.new q hq with hnew | ⟨level, -, hg, hdel⟩
  · exact hnew _ (h.mem_allPairs hf) heq
  · obtain ⟨rfl, -⟩ := h.unique i level f q.2 hf hg heq
    exact hd (heq ▸ hdel)

omit h in
theorem eq_of_number_eq {p q : ℕ × FileMetaData} (hp : p ∈ edit.newFiles) (hq : q ∈ edit.newFiles)
    (hn : p.2.number = q.2.number) : p = q :=
  List.inj_on_of_nodup_map he.nodup hp hq hn

/-- **One more edit.** -/
theorem append : Listed (edits ++ [edit]) (v.applyEdit edit) := by
  have hfresh := h.fresh he
  have hnew : (edit.addedPairs ++ edits.reverse.flatMap (·.addedPairs)).Nodup := by
    refine List.nodup_append.mpr ⟨hfresh.nodup, ?_, ?_⟩
    · exact (((List.reverse_perm edits).flatMap_right _).nodup_iff).mpr h.nodup
    · intro a ha b hb heq
      obtain ⟨q, hq, rfl⟩ := List.mem_map.mp ha
      refine h.notMem_allPairs he hq ?_
      rw [allPairs]
      simpa [heq] using hb
  refine ⟨?_, ?_, ?_, ?_⟩
  · rw [List.reverse_append, List.foldl_append]
    exact h.replays.step hnew
  · rw [allPairs_append]
    refine (List.perm_append_comm.nodup_iff).mp ?_
    exact (List.Perm.append_left _ ((List.reverse_perm edits).flatMap_right _)).nodup_iff.mp hnew
  · intro p hp level f hf hn
    rw [VersionSet.mem_applyEdit hfresh] at hf
    rw [allPairs_append] at hp
    rcases List.mem_append.mp hp with hp | hp
    · rcases hf.2 with ⟨hf, -⟩ | hf
      · exact h.top p hp level f hf hn
      · -- a moved file lay one level higher
        rcases he.new _ hf with hno | ⟨l, hl, hfl, -⟩
        · exact absurd hn.symm (hno p hp)
        · have := h.top p hp l f hfl hn
          simp only at hl
          omega
    · obtain ⟨q, hq, rfl⟩ := List.mem_map.mp hp
      rcases hf.2 with ⟨hf, hd⟩ | hf
      · exact absurd hn (h.number_ne he hf hd hq)
      · have := eq_of_number_eq he hf hq hn
        rw [← this]
  · intro i j f g hf hg hn
    rw [VersionSet.mem_applyEdit hfresh] at hf hg
    rcases hf.2 with ⟨hf, hfd⟩ | hf <;> rcases hg.2 with ⟨hg, hgd⟩ | hg
    · exact h.unique i j f g hf hg hn
    · exact absurd hn (h.number_ne he hf hfd hg)
    · exact absurd hn.symm (h.number_ne he hg hgd hf)
    · exact Prod.mk.inj (eq_of_number_eq he hf hg hn)

end Append

end Listed

theorem listed_nil : Listed [] emptyLevels where
  replays := replays_nil
  nodup := List.nodup_nil
  top := by simp [allPairs]
  unique := by simp [emptyLevels]

/-- The snapshot that begins a manifest. -/
theorem listed_writeSnapshot {v : VersionSet} {edits : List VersionEdit}
    (h : Listed edits v.files) : Listed [v.writeSnapshot] v.files := by
  have hpairs : ∀ p, p ∈ v.writeSnapshot.addedPairs ↔ ∃ f ∈ v.files p.1, f.number = p.2 := by
    intro p
    constructor
    · intro hp
      obtain ⟨q, hq, rfl⟩ := List.mem_map.mp hp
      exact ⟨q.2, (VersionSet.mem_writeSnapshot.mp hq).2, rfl⟩
    · rintro ⟨f, hf, hn⟩
      refine List.mem_map.mpr ⟨(p.1, f), ?_, by rw [hn]⟩
      exact VersionSet.mem_writeSnapshot.mpr ⟨h.level_lt hf, hf⟩
  have hnodup : v.writeSnapshot.addedPairs.Nodup := by
    rw [VersionEdit.addedPairs, VersionSet.writeSnapshot, List.map_flatMap]
    simp only [List.map_map]
    refine List.nodup_flatMap.mpr ⟨fun level _ => ?_, ?_⟩
    · have hs := h.sorted level
      rw [List.Nodup, List.pairwise_map]
      refine List.Pairwise.imp_of_mem (fun {f g} hf hg hlt heq => ?_) hs
      have := (h.unique level level f g hf hg (Prod.mk.inj heq).2).2
      rw [this] at hlt
      exact absurd hlt (lt_irrefl _)
    · refine List.Pairwise.imp_of_mem (fun {i j} _ _ hij => ?_) List.pairwise_lt_range
      intro p hpi hpj
      obtain ⟨f, -, rfl⟩ := List.mem_map.mp hpi
      obtain ⟨g, -, heq⟩ := List.mem_map.mp hpj
      have := (Prod.mk.inj heq).1
      simp only at this
      omega
  have hsaved : v.Saved := ⟨h.sorted, fun level f hf => h.level_lt hf⟩
  refine ⟨replays_writeSnapshot hsaved hnodup, by simpa [allPairs] using hnodup, ?_, h.unique⟩
  intro p hp level f hf hn
  obtain ⟨g, hg, hgn⟩ := (hpairs p).mp (by simpa [allPairs] using hp)
  rw [← hgn] at hn
  obtain ⟨rfl, -⟩ := h.unique level p.1 f g hf hg hn
  exact le_rfl

/-! ## The numbers -/

/-- The replay of edits from the start of `recover`. -/
def replayEdits (edits : List VersionEdit) : Replay :=
  edits.foldl Replay.apply (Replay.init VersionSet.init)

/-- An edit as `log_and_apply` completes it. -/
structure VersionEdit.Complete (edit : VersionEdit) (log next seq : ℕ) : Prop where
  logNumber : edit.logNumber = some log
  prevLogNumber : edit.prevLogNumber = some 0
  nextFileNumber : edit.nextFileNumber = some next
  lastSequence : edit.lastSequence = some seq

theorem VersionSet.completeEdit_complete (v : VersionSet) {edit : VersionEdit} {log : ℕ}
    (hlog : edit.logNumber.getD v.logNumber = log)
    (hprev : edit.prevLogNumber.getD v.prevLogNumber = 0) :
    (v.completeEdit edit).Complete log v.nextFileNumber v.lastSequence where
  logNumber := congrArg some hlog
  prevLogNumber := congrArg some hprev
  nextFileNumber := rfl
  lastSequence := rfl

/-- The manifest names the files of a version, and the last numbers in it are these. -/
structure Reads (edits : List VersionEdit) (files : Levels) (log next seq : ℕ) : Prop where
  listed : Listed edits files
  logNumber : (replayEdits edits).logNumber = some log
  nextFile : (replayEdits edits).nextFile = some next
  lastSequence : (replayEdits edits).lastSequence = some seq
  prevLogNumber : (replayEdits edits).prevLogNumber.getD 0 = 0
  log_lt : log < next
  lt_next : ∀ p ∈ allPairs edits, p.2 < next

namespace Reads

variable {edits : List VersionEdit} {files files' : Levels} {log next seq log' next' seq' : ℕ}

theorem number_lt (h : Reads edits files log next seq) {level : ℕ} {f : FileMetaData}
    (hf : f ∈ files level) : f.number < next :=
  h.lt_next _ (h.listed.mem_allPairs hf)

end Reads

/-- A manifest that ends with a completed edit. -/
theorem Listed.reads {edits : List VersionEdit} {edit : VersionEdit} {files : Levels}
    {log next seq : ℕ} (h : Listed (edits ++ [edit]) files) (hc : edit.Complete log next seq)
    (hlog : log < next) (hlt : ∀ p ∈ allPairs (edits ++ [edit]), p.2 < next) :
    Reads (edits ++ [edit]) files log next seq := by
  obtain ⟨h1, h2, h3⟩ := foldl_apply_append_numbers edits edit (Replay.init VersionSet.init)
    (by rw [hc.nextFileNumber]; rfl) (by rw [hc.lastSequence]; rfl) (by rw [hc.logNumber]; rfl)
  refine ⟨h, h3.trans hc.logNumber, h1.trans hc.nextFileNumber, h2.trans hc.lastSequence, ?_,
    hlog, hlt⟩
  simp [replayEdits, Replay.apply, hc.prevLogNumber]

/-- **One more edit**, with numbers that bound the files named so far. -/
theorem Reads.append {edits : List VersionEdit} {edit : VersionEdit} {v : VersionSet}
    {log next seq log' next' seq' : ℕ} (h : Reads edits v.files log next seq)
    (he : edit.Extends edits v.files) (hc : edit.Complete log' next' seq') (hlog : log' < next')
    (hold : ∀ p ∈ allPairs edits, p.2 < next') (hnew : ∀ q ∈ edit.newFiles, q.2.number < next') :
    Reads (edits ++ [edit]) (v.applyEdit edit) log' next' seq' := by
  refine (h.listed.append he).reads hc hlog fun p hp => ?_
  rw [allPairs_append] at hp
  rcases List.mem_append.mp hp with hp | hp
  · exact hold p hp
  · obtain ⟨q, hq, rfl⟩ := List.mem_map.mp hp
    exact hnew q hq

theorem reads_newDb : Reads [newDbEdit] emptyLevels 0 2 0 where
  listed := by
    have h : Listed ([] ++ [newDbEdit]) (VersionSet.init.applyEdit newDbEdit) :=
      Listed.append listed_nil ⟨List.nodup_nil, by simp [newDbEdit, VersionEdit.empty]⟩
    have hfiles : VersionSet.init.applyEdit newDbEdit = emptyLevels := by
      funext level
      refine List.eq_nil_iff_forall_not_mem.mpr fun f hf => ?_
      have := h.mem_allPairs hf
      simp [allPairs, newDbEdit, VersionEdit.addedPairs, VersionEdit.empty] at this
    rwa [hfiles] at h
  logNumber := rfl
  nextFile := rfl
  lastSequence := rfl
  prevLogNumber := rfl
  log_lt := by omega
  lt_next := by simp [allPairs, newDbEdit, VersionEdit.addedPairs, VersionEdit.empty]

/-- What `recover` makes of the manifest: its files and numbers, the counters past all of
    them, and a number for the new manifest that is not its own. -/
theorem Reads.recover {edits : List VersionEdit} {files : Levels} {log next seq : ℕ}
    (h : Reads edits files log next seq) (own : ℕ) :
    ∃ v, finishRecover VersionSet.init own (replayEdits edits) = .ok v ∧ v.files = files ∧
      v.fileToCompact = none ∧ v.logNumber = log ∧ v.prevLogNumber = 0 ∧ v.lastSequence = seq ∧
      next ≤ v.manifestFileNumber ∧ own < v.manifestFileNumber ∧
      v.nextFileNumber = v.manifestFileNumber + 1 := by
  have hfiles : (replayEdits edits).builder.saveTo VersionSet.init.files = files := by
    rw [replayEdits, builder_foldl_apply]
    exact h.listed.replays.saveTo_eq
  unfold finishRecover
  rw [h.nextFile, h.logNumber, h.lastSequence]
  refine ⟨_, rfl, hfiles, rfl, rfl, h.prevLogNumber, rfl, ?_, ?_, rfl⟩
  · show next ≤ if next ≤ own then own + 1 else next
    split_ifs <;> omega
  · show own < if next ≤ own then own + 1 else next
    split_ifs <;> omega

end Ambar
