import Ambar.Engine.Logs

/-!
# What a step can do

The steps of a process, taken apart once. The writer and the readers leave the
version, the tables, the manifest and the job of the background thread alone
(`Quiet`); the steps of the background thread are listed with their guards
(`JobStep`).

* `Process.step_cases`: every step is one or the other.
-/

namespace Ambar

/-- The number is in use and is not that of a log about to take over. -/
def Process.Taken (p : Process) (n : ℕ) : Prop :=
  n < p.versions.nextFileNumber ∧ p.writer ≠ .rotating n

/-- Every log in the directory has a number below the next one, unless a rotation left
    its log behind and gave the number back. -/
def LogsBounded (d : Disk) (p : Process) : Prop :=
  p.backgroundError = true ∨ ∀ n ∈ d.logFiles, n < p.versions.nextFileNumber

/-- The step is one of the writer or of a reader. -/
structure Quiet (d : Disk) (p : Process) (d' : Disk) (p' : Process) : Prop where
  tables : d'.tables = d.tables
  tableFiles : d'.tableFiles = d.tableFiles
  manifest : d'.manifest = d.manifest
  records : d'.records = d.records ∨ ∃ r, d'.records = d.records ++ [(p.logfileNumber, r)]
  logFiles : ∀ n ∈ d.logFiles, n ∈ d'.logFiles ∨ p.logfileNumber < n
  bounded : LogsBounded d p → LogsBounded d' p'
  files : p'.versions.files = p.versions.files
  seeks : p.versions.SeeksOk → p'.versions.SeeksOk
  logNumber : p'.versions.logNumber = p.versions.logNumber
  lastSequence : p.versions.lastSequence ≤ p'.versions.lastSequence
  taken : ∀ n, p.Taken n → p'.Taken n
  pendingOutputs : p'.pendingOutputs = p.pendingOutputs
  job : p'.job = p.job
  backgroundError : p.backgroundError = true → p'.backgroundError = true
  shuttingDown : p.shuttingDown = true → p'.shuttingDown = true
  rotated : p'.logfileNumber = p.logfileNumber ∧ p'.imm = p.imm ∨
    p.logfileNumber < p'.logfileNumber ∧ p.imm = none ∧ p'.imm.isSome = true
  smallest : p.snapshots.smallestSnapshot p.versions.lastSequence ≤
    p'.snapshots.smallestSnapshot p'.versions.lastSequence

/-- The steps of the background thread. -/
inductive JobStep (opts : Options) (d : Disk) (p : Process) : Action → Disk → Process → Prop
  | nothing (manual : Option ManualCompaction) : JobStep opts d p (.background manual) d p
  | flush (manual : Option ManualCompaction) (imm : MemTable) (hjob : p.job = .idle)
      (herr : p.backgroundError = false) (hshut : p.shuttingDown = false)
      (himm : p.imm = some imm) : JobStep opts d p (.background manual) d (p.beginFlush none)
  | manual (request : ManualCompaction) (c : Compaction) (hjob : p.job = .idle)
      (herr : p.backgroundError = false) (hshut : p.shuttingDown = false)
      (hlevel : request.level + 1 < kNumLevels)
      (hc : compactRange opts p.versions request.level request.begin_ request.end_ = some c) :
      JobStep opts d p (.background (some request)) d ((p.setPointer c).beginWork d c true)
  | move (c : Compaction) (f : FileMetaData) (rest : List FileMetaData) (hjob : p.job = .idle)
      (herr : p.backgroundError = false) (hshut : p.shuttingDown = false)
      (hc : pickCompaction opts p.versions = some c) (hmove : c.isTrivialMove = true)
      (hf : c.inputs0 = f :: rest) :
      JobStep opts d p (.background none) d ((p.setPointer c).beginLog (c.moveEdit f) .moving)
  | automatic (c : Compaction) (hjob : p.job = .idle) (herr : p.backgroundError = false)
      (hshut : p.shuttingDown = false) (hc : pickCompaction opts p.versions = some c) :
      JobStep opts d p (.background none) d ((p.setPointer c).beginWork d c false)
  | nested (work : Work) (imm : MemTable) (hjob : p.job = .working work)
      (himm : p.imm = some imm) (hshut : p.shuttingDown = false) :
      JobStep opts d p .nestedFlush d (p.beginFlush (some work))
  | built (number : ℕ) (resume : Option Work) (imm : MemTable)
      (hjob : p.job = .building number resume) (himm : p.imm = some imm)
      (hshut : p.shuttingDown = false) :
      JobStep opts d p .buildTable
        (if imm.toList = [] then d else d.writeTable number imm.toList)
        ({ p with pendingOutputs := p.pendingOutputs.erase number }.beginLog
          (p.flushEdit opts number imm) fun logging => .flushing logging resume)
  | builtLate (number : ℕ) (resume : Option Work) (imm : MemTable)
      (hjob : p.job = .building number resume) (himm : p.imm = some imm)
      (hshut : p.shuttingDown = true) :
      JobStep opts d p .buildTable
        (if imm.toList = [] then d else d.writeTable number imm.toList)
        ({ p with pendingOutputs := p.pendingOutputs.erase number }.flushFails resume)
  | entry (work : Work) (e : Entry) (rest : List Entry) (next : CompactionState × Bool)
      (hjob : p.job = .working work) (hrest : work.rest = e :: rest)
      (hnext : compactEntry opts work.compaction work.smallestSnapshot p.versions.nextFileNumber
        work.state e = next) :
      JobStep opts d p .compactEntry (d.writeOutputs next.1.all)
        { p with
          versions := if next.2 then p.versions.takeNumber else p.versions
          pendingOutputs := if next.2 then
            Insert.insert p.versions.nextFileNumber p.pendingOutputs else p.pendingOutputs
          job := .working { work with state := next.1, rest := rest } }
  | finish (work : Work) (hjob : p.job = .working work) (hrest : work.rest = []) :
      JobStep opts d p .finishWork d
        (p.beginLog (work.compaction.installEdit opts work.state.finish.outputs) fun logging =>
          .installing logging { work with state := work.state.finish })
  | append (logging : Logging) (job : Logging → Job) (happ : logging.appended = false)
      (hjob : p.job = job logging)
      (hkind : (∃ resume, job = fun l => .flushing l resume) ∨ job = .moving ∨
        ∃ work, job = fun l => .installing l work) :
      JobStep opts d p .appendEdit { d with manifest := d.manifest ++ [logging.edit] }
        { p with job := job { logging with appended := true } }
  | syncFlush (logging : Logging) (resume : Option Work) (spared : Spared) (q : Process)
      (hjob : p.job = .flushing logging resume) (happ : logging.appended = true)
      (hq : q = { p with
        versions := p.versions.install logging.edit logging.files
        imm := none
        job := .afterFlush resume }) :
      JobStep opts d p (.syncEdit spared) (removeObsoleteFiles d q spared) q
  | syncMove (logging : Logging) (spared : Spared) (q : Process)
      (hjob : p.job = .moving logging) (happ : logging.appended = true)
      (hq : q = { p with
        versions := p.versions.install logging.edit logging.files
        job := .idle }) :
      JobStep opts d p (.syncEdit spared) (removeObsoleteFiles d q spared) q
  | syncInstall (logging : Logging) (work : Work) (spared : Spared) (q : Process)
      (hjob : p.job = .installing logging work) (happ : logging.appended = true)
      (hq : q = { p with
        versions := p.versions.install logging.edit logging.files }.abandon work) :
      JobStep opts d p (.syncEdit spared) (removeObsoleteFiles d q spared) q
  | failBuild (number : ℕ) (resume : Option Work) (whole took : Bool) (spared : Spared)
      (hjob : p.job = .building number resume) :
      JobStep opts d p (.jobFails whole took spared) d
        ({ p with pendingOutputs := p.pendingOutputs.erase number }.flushFails resume)
  | failFlush (logging : Logging) (resume : Option Work) (whole took : Bool) (spared : Spared)
      (hjob : p.job = .flushing logging resume) :
      JobStep opts d p (.jobFails whole took spared) (Process.failedManifest d logging whole)
        (p.flushFails resume)
  | failMove (logging : Logging) (whole took : Bool) (spared : Spared) (q : Process)
      (hjob : p.job = .moving logging)
      (hq : q = { p with backgroundError := p.backgroundError || !p.shuttingDown, job := .idle }) :
      JobStep opts d p (.jobFails whole took spared)
        (removeObsoleteFiles (Process.failedManifest d logging whole) q spared) q
  | failWork (work : Work) (whole took : Bool) (spared : Spared) (q : Process)
      (hjob : p.job = .working work)
      (hq : q = { p.abandon work with
        versions := if took then p.versions.takeNumber else p.versions
        backgroundError := p.backgroundError || !p.shuttingDown }) :
      JobStep opts d p (.jobFails whole took spared) (removeObsoleteFiles d q spared) q
  | failInstall (logging : Logging) (work : Work) (whole took : Bool) (spared : Spared)
      (q : Process) (hjob : p.job = .installing logging work)
      (hq : q = { p.abandon work with
        backgroundError := p.backgroundError || !p.shuttingDown }) :
      JobStep opts d p (.jobFails whole took spared)
        (removeObsoleteFiles (Process.failedManifest d logging whole) q spared) q

/-! ## The writer and the readers -/

section

variable {d d' : Disk} {p p' : Process}

/-- A step that changes only the memtable, the snapshots, the flags and the writer, who
    is not about to rotate, and moves the last sequence on. -/
theorem Quiet.of_counters (h : LogsOk d p) (h' : LogsOk d' p') (htables : d'.tables = d.tables)
    (hfiles : d'.tableFiles = d.tableFiles) (hmanifest : d'.manifest = d.manifest)
    (hrecords : d'.records = d.records ∨ ∃ r, d'.records = d.records ++ [(p.logfileNumber, r)])
    (hlogFiles : d'.logFiles = d.logFiles) (hseq : p.versions.lastSequence ≤ p'.versions.lastSequence)
    (hversions : p'.versions = { p.versions with
      lastSequence := p'.versions.lastSequence, fileToCompact := p'.versions.fileToCompact })
    (hseeks : p.versions.SeeksOk → p'.versions.SeeksOk)
    (hpending : p'.pendingOutputs = p.pendingOutputs) (hjob : p'.job = p.job)
    (herr : p.backgroundError = true → p'.backgroundError = true)
    (hshut : p.shuttingDown = true → p'.shuttingDown = true)
    (hlog : p'.logfileNumber = p.logfileNumber) (himm : p'.imm = p.imm)
    (hwriter : ∀ n, p'.writer = .rotating n → p.writer = .rotating n)
    (hobjects : ∀ o ∈ p'.snapshots.objects,
      o ∈ p.snapshots.objects ∨ o.2 = p.versions.lastSequence) : Quiet d p d' p' where
  tables := htables
  tableFiles := hfiles
  manifest := hmanifest
  records := hrecords
  logFiles := fun n hn => Or.inl (hlogFiles ▸ hn)
  bounded := fun hb => by
    refine hb.imp herr fun hlt n hn => ?_
    rw [hversions]
    exact hlt n (hlogFiles ▸ hn)
  files := by rw [hversions]
  seeks := hseeks
  logNumber := by rw [hversions]
  lastSequence := hseq
  taken := fun n hn => ⟨by rw [hversions]; exact hn.1, fun hw => hn.2 (hwriter n hw)⟩
  pendingOutputs := hpending
  job := hjob
  backgroundError := herr
  shuttingDown := hshut
  rotated := Or.inl ⟨hlog, himm⟩
  smallest := by
    obtain ⟨hle, hlive⟩ := h.snapshots.smallest_le
    refine h'.snapshots.le_smallest (fun o ho => ?_) (hle.trans hseq)
    rcases hobjects o ho with ho | ho
    · exact hlive o ho
    · exact ho ▸ hle

theorem quiet_beginWrite (h : LogsOk d p) {ops : List Op} (hs : p.beginWrite ops = some p') :
    Quiet d p d p' := by
  have h' := h.beginWrite hs
  unfold Process.beginWrite at hs
  split at hs
  · split_ifs at hs
    cases hs
    exact .of_counters h h' rfl rfl rfl (Or.inl rfl) rfl le_rfl rfl id rfl rfl id id rfl rfl
      (fun n hn => by cases hn) fun o ho => Or.inl ho
  · cases hs

theorem quiet_logWrite (h : LogsOk d p) {whole ok : Bool}
    (hs : p.logWrite d whole ok = some (d', p')) : Quiet d p d' p' := by
  have h' := h.logWrite hs
  unfold Process.logWrite at hs
  split at hs
  · next r hw =>
    obtain ⟨-, heq⟩ := Option.ite_none_right_eq_some.mp hs
    cases whole with
    | true =>
      cases heq
      exact .of_counters h h' rfl rfl rfl (Or.inr ⟨r, rfl⟩) rfl le_rfl rfl id rfl rfl id id rfl rfl
        (fun n hn => by cases hn) fun o ho => Or.inl ho
    | false =>
      cases heq
      exact .of_counters h h' rfl rfl rfl (Or.inl rfl) rfl le_rfl rfl id rfl rfl id id rfl rfl
        (fun n hn => by cases hn) fun o ho => Or.inl ho
  · cases hs

theorem quiet_insert (h : LogsOk d p) (hs : p.insert = some p') : Quiet d p d p' := by
  have h' := h.insert hs
  unfold Process.insert at hs
  split at hs
  · cases hs
    exact .of_counters h h' rfl rfl rfl (Or.inl rfl) rfl le_rfl rfl id rfl rfl id id rfl rfl
      (fun n hn => by cases hn) fun o ho => Or.inl ho
  · cases hs

theorem quiet_publish (h : LogsOk d p) (hs : p.publish = some p') : Quiet d p d p' := by
  have h' := h.publish hs
  have hle : ∀ {r : LogRecord} {stage : WriteStage}, p.writer = .writing r stage →
      p.versions.lastSequence ≤ r.next - 1 := by
    intro r stage hw
    have := (h.writing r stage hw).1
    show _ ≤ r.sequence + r.ops.length - 1
    omega
  unfold Process.publish at hs
  split at hs
  · next r hw =>
    cases hs
    exact .of_counters h h' rfl rfl rfl (Or.inl rfl) rfl (hle hw) rfl id rfl rfl id id rfl rfl
      (fun n hn => by cases hn) fun o ho => Or.inl ho
  · next r hw =>
    cases hs
    exact .of_counters h h' rfl rfl rfl (Or.inl rfl) rfl (hle hw) rfl id rfl rfl (fun _ => rfl) id
      rfl rfl (fun n hn => by cases hn) fun o ho => Or.inl ho
  · cases hs

theorem quiet_openLogFails (h : LogsOk d p) {recorded : Bool}
    (hs : p.openLogFails recorded = some p') : Quiet d p d p' := by
  have h' := h.openLogFails hs
  unfold Process.openLogFails at hs
  split at hs
  · cases hs
    exact .of_counters h h' rfl rfl rfl (Or.inl rfl) rfl le_rfl rfl id rfl rfl
      (fun herr => by simp [herr]) id rfl rfl (fun n hn => hn) fun o ho => Or.inl ho
  · cases hs

theorem quiet_beginRotate (h : LogsOk d p) (hs : p.beginRotate d = some (d', p')) :
    Quiet d p d' p' := by
  have h' := h.beginRotate hs
  unfold Process.beginRotate at hs
  split at hs
  · next hw hi =>
    split_ifs at hs
    cases hs
    refine {
      tables := rfl
      tableFiles := rfl
      manifest := rfl
      records := Or.inl (Disk.createLog_records fun r hr => ?_)
      logFiles := fun n hn => Or.inl (Finset.mem_insert_of_mem hn)
      bounded := fun hb => hb.imp id fun hlt n hn => ?_
      files := rfl
      seeks := id
      logNumber := rfl
      lastSequence := le_rfl
      taken := fun n hn => ⟨hn.1.trans (Nat.lt_succ_self _), fun hw => ?_⟩
      pendingOutputs := rfl
      job := rfl
      backgroundError := id
      shuttingDown := id
      rotated := Or.inl ⟨rfl, rfl⟩
      smallest := le_rfl }
    · have := h.le_log r hr
      have := h.log_lt
      omega
    · rcases Finset.mem_insert.mp hn with rfl | hn
      · exact Nat.lt_succ_self _
      · exact (hlt n hn).trans (Nat.lt_succ_self _)
    · cases hw
      exact absurd hn.1 (lt_irrefl _)
  · cases hs

theorem quiet_endRotate (h : LogsOk d p) {ok removed : Bool}
    (hs : p.endRotate d ok removed = some (d', p')) : Quiet d p d' p' := by
  unfold Process.endRotate at hs
  split at hs
  · next n hw =>
    obtain ⟨hlt, hn, -, hi, -⟩ := h.rotating n hw
    cases ok with
    | true =>
      cases hs
      exact {
        tables := rfl
        tableFiles := rfl
        manifest := rfl
        records := Or.inl rfl
        logFiles := fun n hn => Or.inl hn
        bounded := id
        files := rfl
        seeks := id
        logNumber := rfl
        lastSequence := le_rfl
        taken := fun n hn => ⟨hn.1, fun hw => by cases hw⟩
        pendingOutputs := rfl
        job := rfl
        backgroundError := id
        shuttingDown := id
        rotated := Or.inr ⟨hlt, hi, rfl⟩
        smallest := le_rfl }
    | false =>
      have hv : ∀ v, v = p.versions.reuseFileNumber n →
          v = { p.versions with nextFileNumber := v.nextFileNumber } ∧
            ∀ m, p.Taken m → m < v.nextFileNumber := by
        rintro v rfl
        unfold VersionSet.reuseFileNumber
        split_ifs with heq
        · refine ⟨rfl, fun m hm => ?_⟩
          have h1 := hm.1
          have h2 : m ≠ n := fun hmn => hm.2 (hmn ▸ hw)
          show m < n
          omega
        · exact ⟨rfl, fun m hm => hm.1⟩
      obtain ⟨hveq, hvtaken⟩ := hv _ rfl
      cases hs
      refine {
        tables := by split_ifs <;> rfl
        tableFiles := by split_ifs <;> rfl
        manifest := by split_ifs <;> rfl
        records := Or.inl (by split_ifs <;> rfl)
        logFiles := fun m hm => ?_
        bounded := fun _ => Or.inl rfl
        files := by
          show (p.versions.reuseFileNumber n).files = _
          rw [hveq]
        seeks := by
          show _ → (p.versions.reuseFileNumber n).SeeksOk
          rw [hveq]
          exact id
        logNumber := by
          show (p.versions.reuseFileNumber n).logNumber = _
          rw [hveq]
        lastSequence := by
          show _ ≤ (p.versions.reuseFileNumber n).lastSequence
          rw [hveq]
        taken := fun m hm => ⟨hvtaken m hm, fun hw => by cases hw⟩
        pendingOutputs := rfl
        job := rfl
        backgroundError := fun _ => rfl
        shuttingDown := id
        rotated := Or.inl ⟨rfl, rfl⟩
        smallest := by
          show _ ≤ p.snapshots.smallestSnapshot (p.versions.reuseFileNumber n).lastSequence
          rw [hveq] }
      by_cases hmn : m = n
      · exact Or.inr (hmn ▸ hlt)
      · refine Or.inl ?_
        split_ifs
        · exact Finset.mem_erase.mpr ⟨hmn, hm⟩
        · exact hm
  · cases hs

theorem quiet_getSnapshot (h : LogsOk d p) {address : ℕ} (hs : p.getSnapshot address = some p') :
    Quiet d p d p' := by
  have h' := h.getSnapshot hs
  unfold Process.getSnapshot at hs
  obtain ⟨-, heq⟩ := Option.ite_none_left_eq_some.mp hs
  cases heq
  refine .of_counters h h' rfl rfl rfl (Or.inl rfl) rfl le_rfl rfl id rfl rfl id id rfl rfl
    (fun n hn => hn) fun o ho => ?_
  rcases List.mem_append.mp ho with ho | ho
  · exact Or.inl ho
  · rw [List.mem_singleton.mp ho]
    exact Or.inr rfl

theorem quiet_releaseSnapshot (h : LogsOk d p) {address : ℕ}
    (hs : p.releaseSnapshot address = some p') : Quiet d p d p' := by
  have h' := h.releaseSnapshot hs
  obtain ⟨snapshots, hr, rfl⟩ := Option.map_eq_some_iff.mp hs
  obtain ⟨o, -, rfl⟩ := Option.map_eq_some_iff.mp hr
  exact .of_counters h h' rfl rfl rfl (Or.inl rfl) rfl le_rfl rfl id rfl rfl id id rfl rfl
    (fun n hn => hn) fun o ho => Or.inl (List.mem_of_mem_filter ho)

/-- A file of the version is marked, unless one is. -/
theorem quiet_mark (h : LogsOk d p) {mark : Option (ℕ × FileMetaData)}
    (hmark : ∀ level f, mark = some (level, f) →
      f ∈ p.versions.files level ∧ level + 1 < kNumLevels) :
    LogsOk d (p.mark mark) ∧ Quiet d p d (p.mark mark) := by
  have h' : LogsOk d (p.mark mark) :=
    h.frame rfl (fun n hn _ => hn) rfl rfl rfl rfl h.snapshots rfl rfl rfl le_rfl id
  refine ⟨h', .of_counters h h' rfl rfl rfl (Or.inl rfl) rfl le_rfl rfl (fun hs level f hf => ?_)
    rfl rfl id id rfl rfl (fun n hn => hn) fun o ho => Or.inl ho⟩
  rcases Option.or_eq_some_iff.mp hf with hf | ⟨-, hf⟩
  · exact hs level f hf
  · exact hmark level f hf

theorem quiet_chargeSeek (h : LogsOk d p) (key : Bytes) (snapshot : ℕ) :
    LogsOk d (p.chargeSeek d key snapshot) ∧ Quiet d p d (p.chargeSeek d key snapshot) :=
  quiet_mark h fun _ _ hf => versionGet_seekFile hf

theorem quiet_shutDown (h : LogsOk d p) :
    LogsOk d { p with shuttingDown := true } ∧ Quiet d p d { p with shuttingDown := true } := by
  have h' : LogsOk d { p with shuttingDown := true } :=
    h.frame rfl (fun n hn _ => hn) rfl rfl rfl rfl h.snapshots rfl rfl rfl le_rfl id
  exact ⟨h', .of_counters h h' rfl rfl rfl (Or.inl rfl) rfl le_rfl rfl id rfl rfl id
    (fun _ => rfl) rfl rfl (fun n hn => hn) fun o ho => Or.inl ho⟩

/-! ## The background thread -/

variable {opts : Options}

theorem startCompaction_manual (o : Option Compaction) :
    p.startCompaction d true o = p ∨
      ∃ c, o = some c ∧ p.startCompaction d true o = (p.setPointer c).beginWork d c true := by
  cases o with
  | none => exact Or.inl rfl
  | some c => exact Or.inr ⟨c, rfl, rfl⟩

theorem startCompaction_automatic (o : Option Compaction) :
    p.startCompaction d false o = p ∨
      (∃ c f rest, o = some c ∧ c.isTrivialMove = true ∧ c.inputs0 = f :: rest ∧
        p.startCompaction d false o = (p.setPointer c).beginLog (c.moveEdit f) .moving) ∨
      ∃ c, o = some c ∧ p.startCompaction d false o = (p.setPointer c).beginWork d c false := by
  cases o with
  | none => exact Or.inl rfl
  | some c =>
    refine Or.inr ?_
    unfold Process.startCompaction
    dsimp only
    split
    · next f rest _ hmove hf => exact Or.inl ⟨c, f, rest, rfl, hmove, hf, rfl⟩
    · exact Or.inr ⟨c, rfl, rfl⟩

theorem jobStep_background {manual : Option ManualCompaction}
    (hs : p.background opts d manual = some p') : JobStep opts d p (.background manual) d p' := by
  unfold Process.background at hs
  cases hjob : p.job with
  | idle =>
    simp only [hjob] at hs
    obtain ⟨⟨herr, hshut⟩, hs⟩ := Option.ite_none_right_eq_some.mp hs
    cases himm : p.imm with
    | some imm =>
      simp only [himm, Option.some.injEq] at hs
      rw [← hs]
      exact .flush _ imm hjob herr hshut himm
    | none =>
      cases manual with
      | some request =>
        simp only [himm, Option.ite_none_right_eq_some, Option.some.injEq] at hs
        obtain ⟨hlevel, rfl⟩ := hs
        rcases @startCompaction_manual d p _ with heq | ⟨c, hc, heq⟩
        · rw [heq]
          exact .nothing _
        · rw [heq]
          exact .manual request c hjob herr hshut hlevel hc
      | none =>
        simp only [himm, Option.some.injEq] at hs
        rw [← hs]
        rcases @startCompaction_automatic d p (pickCompaction opts p.versions) with
          heq | ⟨c, f, rest, hc, hmove, hf, heq⟩ | ⟨c, hc, heq⟩
        · rw [heq]
          exact .nothing _
        · rw [heq]
          exact .move c f rest hjob herr hshut hc hmove hf
        · rw [heq]
          exact .automatic c hjob herr hshut hc
  | building number resume => simp [hjob] at hs
  | flushing logging resume => simp [hjob] at hs
  | moving logging => simp [hjob] at hs
  | working work => simp [hjob] at hs
  | installing logging work => simp [hjob] at hs

theorem jobStep_nestedFlush (hs : p.nestedFlush = some p') : JobStep opts d p .nestedFlush d p' := by
  unfold Process.nestedFlush at hs
  split at hs
  · next work imm hjob himm =>
    obtain ⟨⟨hshut, -⟩, hs⟩ := Option.ite_none_right_eq_some.mp hs
    cases hs
    exact .nested work imm hjob himm hshut
  · cases hs

theorem jobStep_buildTable (hs : p.buildTable opts d = some (d', p')) :
    JobStep opts d p .buildTable d' p' := by
  unfold Process.buildTable at hs
  split at hs
  · next number resume imm hjob himm =>
    dsimp only at hs
    by_cases hshut : p.shuttingDown = true
    · rw [if_pos hshut] at hs
      cases hs
      exact .builtLate number resume imm hjob himm hshut
    · rw [if_neg hshut] at hs
      cases hs
      exact .built number resume imm hjob himm (by simpa using hshut)
  · cases hs

theorem jobStep_compactEntry (hs : p.compactEntry opts d = some (d', p')) :
    JobStep opts d p .compactEntry d' p' := by
  unfold Process.compactEntry at hs
  split at hs
  · next work hjob =>
    split at hs
    · cases hs
    · next e rest hrest =>
      obtain ⟨-, hs⟩ := Option.ite_none_left_eq_some.mp hs
      cases hs
      exact .entry work e rest _ hjob hrest rfl
  · cases hs

theorem jobStep_finishWork (hs : p.finishWork opts = some p') :
    JobStep opts d p .finishWork d p' := by
  unfold Process.finishWork at hs
  split at hs
  · next work hjob =>
    obtain ⟨⟨hrest, -⟩, hs⟩ := Option.ite_none_right_eq_some.mp hs
    cases hs
    exact .finish work hjob hrest
  · cases hs

theorem jobStep_appendEdit (hs : p.appendEdit d = some (d', p')) :
    JobStep opts d p .appendEdit d' p' := by
  unfold Process.appendEdit at hs
  dsimp only at hs
  split at hs
  · next logging resume hjob =>
    obtain ⟨happ, hs⟩ := Option.ite_none_left_eq_some.mp hs
    cases hs
    exact .append logging (fun l => .flushing l resume) (by simpa using happ) hjob
      (Or.inl ⟨resume, rfl⟩)
  · next logging hjob =>
    obtain ⟨happ, hs⟩ := Option.ite_none_left_eq_some.mp hs
    cases hs
    exact .append logging .moving (by simpa using happ) hjob (Or.inr (Or.inl rfl))
  · next logging work hjob =>
    obtain ⟨happ, hs⟩ := Option.ite_none_left_eq_some.mp hs
    cases hs
    exact .append logging (fun l => .installing l work) (by simpa using happ) hjob
      (Or.inr (Or.inr ⟨work, rfl⟩))
  · cases hs

theorem jobStep_syncEdit {spared : Spared} (hs : p.syncEdit d spared = some (d', p')) :
    JobStep opts d p (.syncEdit spared) d' p' := by
  unfold Process.syncEdit at hs
  dsimp only at hs
  split at hs
  · next logging resume hjob =>
    obtain ⟨happ, hs⟩ := Option.ite_none_right_eq_some.mp hs
    cases hs
    exact .syncFlush logging resume spared _ hjob happ rfl
  · next logging hjob =>
    obtain ⟨happ, hs⟩ := Option.ite_none_right_eq_some.mp hs
    cases hs
    exact .syncMove logging spared _ hjob happ rfl
  · next logging work hjob =>
    obtain ⟨happ, hs⟩ := Option.ite_none_right_eq_some.mp hs
    cases hs
    exact .syncInstall logging work spared _ hjob happ rfl
  · cases hs

theorem jobStep_jobFails {whole took : Bool} {spared : Spared}
    (hs : p.jobFails d whole took spared = some (d', p')) :
    JobStep opts d p (.jobFails whole took spared) d' p' := by
  unfold Process.jobFails at hs
  split at hs
  · cases hs
  · next number resume hjob =>
    cases hs
    exact .failBuild number resume whole took spared hjob
  · next logging resume hjob =>
    cases hs
    exact .failFlush logging resume whole took spared hjob
  · next logging hjob =>
    cases hs
    exact .failMove logging whole took spared _ hjob rfl
  · next work hjob =>
    cases hs
    exact .failWork work whole took spared _ hjob rfl
  · next logging work hjob =>
    cases hs
    exact .failInstall logging work whole took spared _ hjob rfl

/-- **Every step is quiet or one of the background thread.** -/
theorem Process.step_cases {a : Action} (h : LogsOk d p)
    (hs : p.step opts d a = some (d', p')) :
    Quiet d p d' p' ∧ LogsOk d' p' ∨ JobStep opts d p a d' p' := by
  have hmap : ∀ {o : Option Process}, o.map (d, ·) = some (d', p') → d = d' ∧ o = some p' := by
    rintro (_ | q) heq
    · cases heq
    · cases heq
      exact ⟨rfl, rfl⟩
  cases a with
  | beginWrite ops =>
    obtain ⟨rfl, heq⟩ := hmap hs
    exact Or.inl ⟨quiet_beginWrite h heq, h.beginWrite heq⟩
  | logWrite sync whole ok => exact Or.inl ⟨quiet_logWrite h hs, h.logWrite hs⟩
  | insert =>
    obtain ⟨rfl, heq⟩ := hmap hs
    exact Or.inl ⟨quiet_insert h heq, h.insert heq⟩
  | publish =>
    obtain ⟨rfl, heq⟩ := hmap hs
    exact Or.inl ⟨quiet_publish h heq, h.publish heq⟩
  | openLogFails recorded =>
    obtain ⟨rfl, heq⟩ := hmap hs
    exact Or.inl ⟨quiet_openLogFails h heq, h.openLogFails heq⟩
  | beginRotate => exact Or.inl ⟨quiet_beginRotate h hs, h.beginRotate hs⟩
  | endRotate ok removed => exact Or.inl ⟨quiet_endRotate h hs, h.endRotate hs⟩
  | getSnapshot address =>
    obtain ⟨rfl, heq⟩ := hmap hs
    exact Or.inl ⟨quiet_getSnapshot h heq, h.getSnapshot heq⟩
  | releaseSnapshot address =>
    obtain ⟨rfl, heq⟩ := hmap hs
    exact Or.inl ⟨quiet_releaseSnapshot h heq, h.releaseSnapshot heq⟩
  | chargeSeek key snapshot =>
    cases hs
    exact Or.inl (quiet_chargeSeek h key snapshot).symm
  | shutDown =>
    cases hs
    exact Or.inl (quiet_shutDown h).symm
  | background manual =>
    obtain ⟨rfl, heq⟩ := hmap hs
    exact Or.inr (jobStep_background heq)
  | nestedFlush =>
    obtain ⟨rfl, heq⟩ := hmap hs
    exact Or.inr (jobStep_nestedFlush heq)
  | buildTable => exact Or.inr (jobStep_buildTable hs)
  | compactEntry => exact Or.inr (jobStep_compactEntry hs)
  | finishWork =>
    obtain ⟨rfl, heq⟩ := hmap hs
    exact Or.inr (jobStep_finishWork heq)
  | appendEdit => exact Or.inr (jobStep_appendEdit hs)
  | syncEdit spared => exact Or.inr (jobStep_syncEdit hs)
  | jobFails whole took spared => exact Or.inr (jobStep_jobFails hs)
  | crash => cases hs
  | «open» others full outcome => cases hs

end

end Ambar
