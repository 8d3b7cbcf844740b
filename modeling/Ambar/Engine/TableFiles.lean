import Ambar.Engine.Triggers
import Ambar.Engine.Replay

/-!
# The table files of a database

`remove_obsolete_files` (`src/db_impl.cpp`, lines 1491–1546) deletes every table that is
neither pending nor in a version, and `recover` (lines 242–336) refuses a manifest that
names a table with no file. A cleanup runs after every edit, also after one that failed:
then the manifest may name the outputs of a compaction that the version does not. The
recorded error keeps that cleanup from deleting them, except that no error is recorded
while the process shuts down.

* `Present`: the tables of the version, of the manifest, of an edit in flight and of a
  compaction under way are in the directory.
* `Present.jobStep`: the steps of the background thread.
* `tables_present`: so in every state of every run, and the database opens again.
-/

namespace Ambar

/-- The files of a version are in the directory. -/
def Disk.Has (d : Disk) (files : Levels) : Prop := ∀ n ∈ liveFiles files, n ∈ d.tableFiles

/-- The version that the edits of a manifest add up to. -/
def manifestFiles (edits : List VersionEdit) : Levels :=
  (replayEdits edits).builder.saveTo emptyLevels

/-- The outputs so far are in the directory, and pending. -/
def Work.Present (d : Disk) (p : Process) (w : Work) : Prop :=
  ∀ n ∈ w.numbers, n ∈ d.tableFiles ∧ n ∈ p.pendingOutputs

/-- What must be in the directory while a process has the database open. An edit that moves
    a table names no other tables than the version. -/
structure Present (d : Disk) (p : Process) : Prop where
  version : d.Has p.versions.files
  manifest : d.Has (manifestFiles d.manifest)
  logging : ∀ l, p.job.logging = some l → d.Has l.files ∧
    (p.job = .moving l → ∀ n ∈ liveFiles l.files, n ∈ liveFiles p.versions.files)
  work : ∀ w, p.job.work = some w → w.Present d p

/-- The edit of a compaction in flight. -/
def Job.install : Job → Option Logging
  | .installing l _ => some l
  | _ => none

/-- Whether a failed call leaves its record whole in the manifest. -/
def Action.failed : Action → Option Bool
  | .jobFails whole _ _ => some whole
  | _ => none

/-- An install that fails while the process shuts down, with no error recorded, has not put
    its record into the manifest. -/
def Process.Unrecorded (p : Process) (a : Action) : Prop :=
  ∀ l ∈ p.job.install, ∀ whole ∈ a.failed, p.shuttingDown = true → p.backgroundError = false →
    l.appended = false ∧ whole = false

/-- The same of a step of the engine. -/
def Engine.Unrecorded (e : Engine) (a : Action) : Prop := ∀ p ∈ e.process, p.Unrecorded a

instance Engine.Unrecorded.decidable (e : Engine) (a : Action) : Decidable (e.Unrecorded a) :=
  inferInstanceAs (Decidable (∀ p ∈ e.process, ∀ l ∈ p.job.install, ∀ whole ∈ a.failed, _))

variable {opts : Options} {d d' : Disk} {p p' : Process} {a : Action}

theorem Disk.Has.mono {files : Levels} (h : d.Has files) (hsub : d.tableFiles ⊆ d'.tableFiles) :
    d'.Has files := fun n hn => hsub (h n hn)

theorem Disk.Names.files_eq {edits : List VersionEdit} {files : Levels} {log : ℕ}
    (h : d.Names edits files log) : manifestFiles edits = files := by
  obtain ⟨next, seq, hr, -⟩ := h
  rw [manifestFiles, replayEdits, builder_foldl_apply]
  exact hr.listed.replays.saveTo_eq

/-- An edit leaves the files of the version and those it adds. -/
theorem liveFiles_applyEdit {v : VersionSet} {edit : VersionEdit} (hf : edit.Fresh v.files) {n : ℕ}
    (hn : n ∈ liveFiles (v.applyEdit edit)) :
    n ∈ liveFiles v.files ∨ ∃ q ∈ edit.newFiles, q.2.number = n := by
  obtain ⟨level, hlevel, hn⟩ := List.mem_flatMap.mp hn
  obtain ⟨f, hm, rfl⟩ := List.mem_map.mp hn
  rcases ((VersionSet.mem_applyEdit hf).mp hm).2 with ⟨hm, -⟩ | hm
  · exact Or.inl (List.mem_flatMap.mpr ⟨level, hlevel, List.mem_map_of_mem hm⟩)
  · exact Or.inr ⟨_, hm, rfl⟩

theorem Synced.liveFiles_beginLog (hs : Synced d p) {edit : VersionEdit}
    (he : edit.Extends d.manifest p.versions.files) {n : ℕ}
    (hn : n ∈ liveFiles (p.versions.beginLog edit).1.files) :
    n ∈ liveFiles p.versions.files ∨ ∃ q ∈ edit.newFiles, q.2.number = n := by
  obtain ⟨next, seq, hr, -⟩ := hs
  exact liveFiles_applyEdit (hr.listed.fresh he) hn

/-- A cleanup spares what is pending and the version, and everything once an error is
    recorded. -/
theorem mem_removeObsoleteFiles_tableFiles {spared : Spared} {n : ℕ} (hn : n ∈ d.tableFiles)
    (hkeep : p.backgroundError = true ∨ n ∈ p.pendingOutputs ∨ n ∈ liveFiles p.versions.files) :
    n ∈ (removeObsoleteFiles d p spared).tableFiles := by
  unfold removeObsoleteFiles
  split_ifs with herr
  · exact hn
  · refine Finset.mem_filter.mpr ⟨hn, ?_⟩
    rcases hkeep with h | h | h
    · exact absurd h herr
    · exact Or.inl h
    · exact Or.inr (Or.inl h)

namespace Present

/-- A step that deletes nothing and leaves the version and the manifest. -/
theorem grow (h : Present d p) (hsub : d.tableFiles ⊆ d'.tableFiles)
    (hfiles : p'.versions.files = p.versions.files) (hmanifest : d'.manifest = d.manifest)
    (hlogging : ∀ l, p'.job.logging = some l → d'.Has l.files ∧
      (p'.job = .moving l → ∀ n ∈ liveFiles l.files, n ∈ liveFiles p.versions.files))
    (hwork : ∀ w, p'.job.work = some w → w.Present d' p') : Present d' p' where
  version := by
    rw [hfiles]
    exact h.version.mono hsub
  manifest := by
    rw [hmanifest]
    exact h.manifest.mono hsub
  logging := hfiles ▸ hlogging
  work := hwork

/-- The writer and the readers. -/
theorem quiet (h : Present d p) (hq : Quiet d p d' p') : Present d' p' := by
  have hsub : d.tableFiles ⊆ d'.tableFiles := hq.tableFiles.symm.subset
  refine h.grow hsub hq.files hq.manifest (fun l hl => ?_) fun w hw n hn => ?_
  · rw [hq.job] at hl ⊢
    exact ⟨(h.logging l hl).1.mono hsub, (h.logging l hl).2⟩
  · rw [hq.job] at hw
    rw [hq.pendingOutputs]
    exact ⟨hsub (h.work w hw n hn).1, (h.work w hw n hn).2⟩

/-- A step after which the background thread has stopped or goes on with a compaction, and
    its cleanup. -/
theorem cleaned {q : Process} {spared : Spared} (hv : d.Has q.versions.files)
    (hm : d.Has (manifestFiles d.manifest))
    (hkept : q.backgroundError = true ∨
      ∀ n ∈ liveFiles (manifestFiles d.manifest), n ∈ liveFiles q.versions.files)
    (hjob : q.job = .idle ∨ ∃ w, q.job = .working w ∧ w.Present d q) :
    Present (removeObsoleteFiles d q spared) q where
  version := fun n hn => mem_removeObsoleteFiles_tableFiles (hv n hn) (Or.inr (Or.inr hn))
  manifest := fun n hn => by
    rw [removeObsoleteFiles_manifest] at hn
    exact mem_removeObsoleteFiles_tableFiles (hm n hn) (hkept.imp id fun hk => Or.inr (hk n hn))
  logging := fun l hl => by
    rcases hjob with hjob | ⟨w, hjob, -⟩ <;> rw [hjob] at hl <;> cases hl
  work := fun w hw n hn => by
    rcases hjob with hjob | ⟨w, hjob, hnumbers⟩ <;> rw [hjob] at hw <;> cases hw
    obtain ⟨h1, h2⟩ := hnumbers n hn
    exact ⟨mem_removeObsoleteFiles_tableFiles h1 (Or.inr (Or.inl h2)), h2⟩

/-- A flush that failed: nothing is deleted. -/
theorem flushFails (hv : d'.Has p.versions.files) (hm : d'.Has (manifestFiles d'.manifest))
    {pending : Finset ℕ} (resume : Option Work) :
    Present d' ({ p with pendingOutputs := pending }.flushFails resume) := by
  obtain ⟨pending', heq⟩ := flushFails_eq { p with pendingOutputs := pending } resume
  rw [heq]
  exact ⟨hv, hm, fun l hl => (by cases hl), fun w hw => by cases hw⟩

/-- The manifest after a failed call of `log_and_apply`. -/
theorem failedManifest (h : Present d p) {l : Logging} {log : ℕ} (hl : LoggingOk d p l log)
    (hlogging : p.job.logging = some l) (whole : Bool) :
    let d' := Process.failedManifest d l whole
    d'.Has p.versions.files ∧ d'.Has (manifestFiles d'.manifest) ∧
      (manifestFiles d'.manifest = l.files ∨
        l.appended = false ∧ whole = false ∧ manifestFiles d'.manifest = p.versions.files) := by
  unfold Process.failedManifest
  split_ifs with hw
  · have heq : manifestFiles (d.manifest ++ [l.edit]) = l.files := (hl.before hw.1).2.files_eq
    refine ⟨h.version, ?_, Or.inl heq⟩
    rw [heq]
    exact (h.logging l hlogging).1
  · refine ⟨h.version, h.manifest, ?_⟩
    cases happ : l.appended with
    | true => exact Or.inl (hl.after happ).files_eq
    | false => exact Or.inr ⟨rfl, by simpa [happ] using hw, (hl.before happ).1.files_eq⟩

/-- The version of an edit in the manifest is installed. -/
theorem installed (h : Present d p) {l : Logging} {log : ℕ} (hl : LoggingOk d p l log)
    (hlogging : p.job.logging = some l) (happ : l.appended = true) {q : Process} {spared : Spared}
    (hfiles : q.versions.files = l.files)
    (hjob : q.job = .idle ∨ ∃ w, q.job = .working w ∧ w.Present d q) :
    Present (removeObsoleteFiles d q spared) q := by
  have heq : manifestFiles d.manifest = q.versions.files := (hl.after happ).files_eq.trans hfiles.symm
  refine cleaned ?_ h.manifest (Or.inr fun n hn => heq ▸ hn) hjob
  rw [hfiles]
  exact (h.logging l hlogging).1

/-- The table of a memtable is written and its edit enters `log_and_apply`. -/
theorem built (h : Present d p) (hp : ProcessOk d p) {number : ℕ} {resume : Option Work}
    {imm : MemTable} (hjob : p.job = .building number resume) :
    Present (if imm.toList = [] then d else d.writeTable number imm.toList)
      ({ p with pendingOutputs := p.pendingOutputs.erase number }.beginLog
        (p.flushEdit opts number imm) fun logging => .flushing logging resume) := by
  have hj := hp.books.job
  have hfree := hp.books.reserved number
  have hnodup := hp.books.nodup
  rw [hjob] at hj hfree hnodup
  have hnumber : number ∉ namedNumbers d.manifest := (hfree List.mem_cons_self).2
  have hsub : d.tableFiles ⊆ (if imm.toList = [] then d else d.writeTable number imm.toList).tableFiles := by
    split_ifs
    · exact subset_rfl
    · exact Finset.subset_insert _ _
  refine h.grow hsub rfl (by split_ifs <;> rfl) (fun l hl => ?_) fun w hw n hn => ?_
  · cases hl
    refine ⟨fun n hn => ?_, fun hmove => by cases hmove⟩
    rcases hj.2.liveFiles_beginLog (flushEdit_extends hnumber imm) hn with hn | ⟨q, hq, rfl⟩
    · exact hsub (h.version n hn)
    · obtain ⟨hm, hn, -⟩ := flushEdit_newFiles hq
      have hne : imm.toList ≠ [] := fun hnil => by simp [memTableFile, hnil] at hm
      rw [if_neg hne, hn]
      exact Finset.mem_insert_self _ _
  · have hold : p.job.work = some w := by
      rw [hjob]
      exact hw
    have hresume : resume = some w := hw
    rw [hresume] at hnodup
    refine ⟨hsub (h.work w hold n hn).1, Finset.mem_erase.mpr ⟨?_, (h.work w hold n hn).2⟩⟩
    rintro rfl
    exact (List.nodup_cons.mp hnodup).1 hn

/-- One entry of a compaction: its outputs are in the directory, and pending. -/
theorem entry (h : Present d p) {work : Work} {e : Entry} {rest : List Entry}
    {next : CompactionState × Bool} (hjob : p.job = .working work)
    (hnext : compactEntry opts work.compaction work.smallestSnapshot p.versions.nextFileNumber
      work.state e = next) :
    Present (d.writeOutputs next.1.all)
      { p with
        versions := if next.2 then p.versions.takeNumber else p.versions
        pendingOutputs := if next.2 then
          Insert.insert p.versions.nextFileNumber p.pendingOutputs else p.pendingOutputs
        job := .working { work with state := next.1, rest := rest } } := by
  refine h.grow Finset.subset_union_left (by split_ifs <;> rfl) rfl (fun l hl => by cases hl)
    fun w hw n hn => ?_
  cases hw
  refine ⟨Finset.mem_union_right _ (List.mem_toFinset.mpr hn), ?_⟩
  have hnumbers : next.1.all.map (·.number) =
      work.numbers ++ if next.2 then [p.versions.nextFileNumber] else [] := by
    rw [← hnext]
    exact compactEntry_numbers opts work.compaction work.smallestSnapshot _ work.state e
  have hn' : n ∈ work.numbers ++ if next.2 then [p.versions.nextFileNumber] else [] := hnumbers ▸ hn
  have hold : ∀ n ∈ work.numbers, n ∈ p.pendingOutputs := fun n hn =>
    (h.work work (by rw [hjob]; rfl) n hn).2
  show n ∈ if next.2 then insert p.versions.nextFileNumber p.pendingOutputs else p.pendingOutputs
  split_ifs at hn' ⊢
  · rcases List.mem_append.mp hn' with hn | hn
    · exact Finset.mem_insert_of_mem (hold n hn)
    · rw [List.mem_singleton.mp hn]
      exact Finset.mem_insert_self _ _
  · exact hold n (by simpa using hn')

end Present

/-! ## The steps -/

/-- **Every step of the background thread** keeps the tables that are needed. -/
theorem Present.jobStep (h : Present d p) (hp : ProcessOk d p) (ha : p.Unrecorded a)
    (hs : JobStep opts d p a d' p') : Present d' p' := by
  have hj := hp.books.job
  have hwork := h.work
  -- the process stops and, unless it is shutting down, records why
  have hstop : ∀ {q : Process} {spared : Spared} {d' : Disk}, d'.Has p.versions.files →
      d'.Has (manifestFiles d'.manifest) → q.versions.files = p.versions.files →
      q.backgroundError = (p.backgroundError || !p.shuttingDown) → q.job = .idle →
      (p.shuttingDown = true → p.backgroundError = false →
        ∀ n ∈ liveFiles (manifestFiles d'.manifest), n ∈ liveFiles p.versions.files) →
      Present (removeObsoleteFiles d' q spared) q := by
    intro q spared d' hv hm hfiles herr hjob hkept
    refine cleaned (hfiles ▸ hv) hm ?_ (Or.inl hjob)
    rw [herr, hfiles]
    cases hshut : p.shuttingDown with
    | false => exact Or.inl (by simp)
    | true =>
      cases he : p.backgroundError with
      | true => exact Or.inl rfl
      | false => exact Or.inr (hkept hshut he)
  cases hs with
  | nothing manual => exact h
  | flush manual imm hjob herr hshut himm =>
    exact h.grow subset_rfl rfl rfl (fun l hl => by cases hl) fun w hw => by cases hw
  | manual request c hjob herr hshut hlevel hc =>
    exact h.grow subset_rfl rfl rfl (fun l hl => by cases hl)
      fun w hw n hn => by
        cases hw
        cases hn
  | move c f rest hjob herr hshut hc hmove hf =>
    have hs : Synced d p := by
      rw [hjob] at hj
      rcases hj with he | hs | hs
      · exact absurd (herr.symm.trans he) Bool.false_ne_true
      · exact absurd (hshut.symm.trans hs) Bool.false_ne_true
      · exact hs
    have hmem : f ∈ p.versions.files c.level :=
      pickCompaction_subset hp.books.seeks hc f (by rw [hf]; exact List.mem_cons_self)
    have hlive : ∀ n ∈ liveFiles ((p.setPointer c).versions.beginLog (c.moveEdit f)).1.files,
        n ∈ liveFiles p.versions.files := by
      intro n hn
      rcases hs.liveFiles_beginLog (moveEdit_extends hmem) hn with hn | ⟨q, hq, rfl⟩
      · exact hn
      · obtain rfl : q = (c.level + 1, f) := List.mem_singleton.mp hq
        obtain ⟨next, seq, hr, -⟩ := hs
        exact List.mem_flatMap.mpr ⟨c.level, List.mem_range.mpr (hr.listed.level_lt hmem),
          List.mem_map_of_mem hmem⟩
    refine h.grow subset_rfl rfl rfl (fun l hl => ?_) fun w hw => by cases hw
    cases hl
    exact ⟨fun n hn => h.version n (hlive n hn), fun _ => hlive⟩
  | automatic c hjob herr hshut hc =>
    exact h.grow subset_rfl rfl rfl (fun l hl => by cases hl)
      fun w hw n hn => by
        cases hw
        cases hn
  | nested work imm hjob himm hshut =>
    refine h.grow subset_rfl rfl rfl (fun l hl => by cases hl)
      fun w hw n hn => ?_
    obtain ⟨h1, h2⟩ := hwork w (by rw [hjob]; exact hw) n hn
    exact ⟨h1, Finset.mem_insert_of_mem h2⟩
  | built number resume imm hjob himm hshut => exact h.built hp hjob
  | builtLate number resume imm hjob himm hshut =>
    split_ifs
    · exact flushFails h.version h.manifest resume
    · have hsub : d.tableFiles ⊆ (d.writeTable number imm.toList).tableFiles :=
        Finset.subset_insert _ _
      exact flushFails (h.version.mono hsub) (h.manifest.mono hsub) resume
  | entry work e rest next hjob hrest hnext => exact h.entry hjob hnext
  | finish work hjob hrest =>
    rw [hjob] at hj
    have hw := hwork work (by rw [hjob]; rfl)
    have hres := hp.books.reserved
    have hnd := hp.books.nodup
    rw [hjob] at hres hnd
    refine h.grow subset_rfl rfl rfl (fun l hl => ?_) fun w' hw' n hn => ?_
    · cases hl
      refine ⟨fun n hn => ?_, fun hmove => by cases hmove⟩
      have hextends : (work.compaction.installEdit opts work.state.finish.outputs).Extends
          d.manifest p.versions.files :=
        installEdit_extends hnd fun o ho => (hres _ (List.mem_map_of_mem ho)).2
      rcases hj.liveFiles_beginLog hextends hn with hn | ⟨q, hq, rfl⟩
      · exact h.version n hn
      · rw [(work.compaction.installEdit_spec opts _).1] at hq
        obtain ⟨o, ho, rfl⟩ := List.mem_map.mp hq
        exact (hw o.number (List.mem_map_of_mem ho)).1
    · cases hw'
      rw [Work.numbers, CompactionState.finish_all] at hn
      exact hw n hn
  | append l job happ hjob hkind =>
    -- what is the same for the three kinds of edit
    have key : ∀ log, LoggingOk d p l log → (∀ l, (job l).logging = some l) →
        (job { l with appended := true }).work = (job l).work →
        (∀ l', job { l with appended := true } = .moving l' → job l = .moving l) →
        Present { d with manifest := d.manifest ++ [l.edit] }
          { p with job := job { l with appended := true } } := by
      intro log hl hlog hsame hmove
      obtain ⟨hhas, hmoving⟩ := h.logging l (by rw [hjob]; exact hlog l)
      refine ⟨h.version, ?_, fun l' hl' => ?_, fun w hw => hwork w (by rw [hjob, ← hsame]; exact hw)⟩
      · show Disk.Has _ (manifestFiles (d.manifest ++ [l.edit]))
        rw [(hl.before happ).2.files_eq]
        exact hhas
      · cases (hlog _).symm.trans hl'
        exact ⟨hhas, fun hm => hmoving (hjob.trans (hmove _ hm))⟩
    rw [hjob] at hj
    rcases hkind with ⟨resume, rfl⟩ | rfl | ⟨work, rfl⟩
    · exact key _ hj.2 (fun _ => rfl) rfl fun l' hl' => by cases hl'
    · refine key _ hj (fun _ => rfl) rfl fun l' hl' => ?_
      cases hl'
      rfl
    · exact key _ hj (fun _ => rfl) rfl fun l' hl' => by cases hl'
  | syncFlush l resume spared _ hjob happ hq =>
    rw [hjob] at hj
    refine h.installed hj.2 (by rw [hjob]; rfl) happ (by rw [hq]; rfl) ?_
    rw [hq]
    cases resume with
    | none => exact Or.inl rfl
    | some work => exact Or.inr ⟨work, rfl, hwork work (by rw [hjob]; rfl)⟩
  | syncMove l spared _ hjob happ hq =>
    rw [hjob] at hj
    exact h.installed hj (by rw [hjob]; rfl) happ (by rw [hq]; rfl) (Or.inl (by rw [hq]))
  | syncInstall l work spared _ hjob happ hq =>
    rw [hjob] at hj
    exact h.installed hj (by rw [hjob]; rfl) happ (by rw [hq]; rfl) (Or.inl (by rw [hq]; rfl))
  | failBuild number resume whole took spared hjob => exact flushFails h.version h.manifest resume
  | failFlush l resume whole took spared hjob =>
    rw [hjob] at hj
    obtain ⟨hv, hm, -⟩ := h.failedManifest hj.2 (by rw [hjob]; rfl) whole
    exact @flushFails _ p hv hm p.pendingOutputs resume
  | failMove l whole took spared _ hjob hq =>
    rw [hjob] at hj
    obtain ⟨hv, hm, heq⟩ := h.failedManifest hj (by rw [hjob]; rfl) whole
    refine hstop hv hm (by rw [hq]) (by rw [hq]) (by rw [hq]) fun _ _ => ?_
    rcases heq with heq | ⟨-, -, heq⟩ <;> rw [heq]
    · exact (h.logging l (by rw [hjob]; rfl)).2 hjob
    · exact fun n hn => hn
  | failWork work whole took spared _ hjob hq =>
    rw [hjob] at hj
    refine hstop h.version h.manifest ?_ (by rw [hq]) (by rw [hq]; rfl) fun _ _ => ?_
    · rw [hq]
      cases took <;> rfl
    · rw [hj.files_eq]
      exact fun n hn => hn
  | failInstall l work whole took spared _ hjob hq =>
    rw [hjob] at hj
    obtain ⟨hv, hm, heq⟩ := h.failedManifest hj (by rw [hjob]; rfl) whole
    refine hstop hv hm (by rw [hq]; rfl) (by rw [hq]) (by rw [hq]; rfl) fun hshut herr => ?_
    obtain ⟨happ, hwhole⟩ := ha l (by rw [hjob]; rfl) whole rfl hshut herr
    have hsame : Process.failedManifest d l whole = d := by simp [Process.failedManifest, hwhole]
    rw [hsame, (hj.before happ).1.files_eq]
    exact fun n hn => hn

/-! ## The engine -/

/-- The same with or without a process. -/
def Engine.Present (e : Engine) : Prop :=
  match e.process with
  | none => e.disk.Has (manifestFiles e.disk.manifest)
  | some p => Ambar.Present e.disk p

section

variable {e e' : Engine}

theorem Engine.Present.process (h : e.Present) {p : Process} (hp : e.process = some p) :
    Ambar.Present e.disk p := by
  unfold Engine.Present at h
  rwa [hp] at h

theorem Engine.Present.manifest (h : e.Present) : e.disk.Has (manifestFiles e.disk.manifest) := by
  cases hp : e.process with
  | none =>
    unfold Engine.Present at h
    rwa [hp] at h
  | some p => exact (h.process hp).manifest

/-- The files of the first version of a process: those of the manifest before and the
    tables of the logs. -/
theorem DiskOk.has_install {files : Levels} {log next seq : ℕ} {r : Recovery}
    (hd : DiskOk d files log next seq) (hr : r.Ok d files log next seq) (h : d.Has files) :
    (r.install opts d).Has (r.process opts).versions.files := by
  intro n hn
  have hlisted : Listed d.manifest r.ready.files := hr.files ▸ hd.reads.listed
  have hfresh := (listed_writeSnapshot hlisted).fresh (@Recovery.Ok.edit_extends opts _ _ _ _ _ _ hr hd.reads)
  rcases liveFiles_applyEdit hfresh hn with hn | ⟨q, hq, rfl⟩
  · exact Finset.mem_union_left _ (h n (hr.files ▸ hn))
  · obtain ⟨o, ho, rfl⟩ := List.mem_map.mp hq
    exact Finset.mem_union_right _ (List.mem_toFinset.mpr (List.mem_map_of_mem ho))

theorem DiskOk.files_eq {files : Levels} {log next seq : ℕ} (hd : DiskOk d files log next seq) :
    manifestFiles d.manifest = files :=
  Disk.Names.files_eq ⟨next, seq, hd.reads, hd.seq_le, hd.seq_lt⟩

theorem Engine.Present.step (h : e.Present) (hok : e.Ok) (ha : e.Unrecorded a)
    (hs : e.step opts a = some e') : e'.Present := by
  have hm := h.manifest
  cases Engine.step_steps hs with
  | crash p hp => exact hm
  | process p _ d' p' hp hs' =>
    rcases Process.step_cases (hok.process hp).logs hs' with ⟨hq, -⟩ | hj
    · exact (h.process hp).quiet hq
    · exact (h.process hp).jobStep (hok.process hp) (ha p hp) hj
  | stopped others full tables logCreated r hp hr =>
    cases logCreated <;> exact hm.mono Finset.subset_union_left
  | installed others full r hp hr =>
    obtain ⟨files, log, next, seq, hd⟩ := hok.none hp
    have hr' := hd.recover hr
    show Disk.Has _ (manifestFiles (r.install opts e.disk).manifest)
    rw [(hd.open_installed hr').files_eq]
    exact hd.has_install hr' (hd.files_eq ▸ hm)
  | ok others full spared r hp hr =>
    obtain ⟨files, log, next, seq, hd⟩ := hok.none hp
    have hr' := hd.recover hr
    have hhas : (r.install opts e.disk).Has (r.process opts).versions.files :=
      hd.has_install hr' (hd.files_eq ▸ hm)
    have heq : manifestFiles (r.install opts e.disk).manifest = (r.process opts).versions.files :=
      (hd.open_installed hr').files_eq
    exact Present.cleaned hhas (heq ▸ hhas) (Or.inr fun n hn => heq ▸ hn) (Or.inl rfl)

end

/-- A compaction of one table whose install fails while the process shuts down, with its
    record in the manifest or not. -/
def failedInstall (whole : Bool) : List Action :=
  Action.openAll :: (Action.write [.put [97] [1]] ++ Action.rotate ++ Action.flush ++
    [.background (some ⟨2, none, none⟩), .compactEntry, .finishWork, .shutDown,
      .jobFails whole false ⟨∅, ∅⟩, .crash])

-- With its record in the manifest the cleanup deletes the table that it names, and the
-- database does not open again.
example : (Lib.run (Engine.step sampleOptions) Engine.created (failedInstall true)).map
    (fun e => (e.disk.recover ∅ fun _ _ => false).toOption.isSome) = some false := by
  decide +kernel

end Ambar
