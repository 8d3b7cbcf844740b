import Ambar.Engine.State

/-!
# The steps of the engine

One step takes the state from one point where the mutex is free to the next. The
parameters of an action are what the model leaves open: which calls of the operating
system fail, whether a record that was not acknowledged is nevertheless whole in its
file, which obsolete files stay, and where recovery cuts its memtables.

* `Process.step`: the writer at the front of the queue, snapshots, reads that charge
  seeks, and the background thread.
* `Disk.open`: recovery and the first edit of a process.
* `Engine.step`: these and the end of a process at any point.
-/

namespace Ambar

/-- A request of `compact_range` for one level. -/
structure ManualCompaction where
  level : ℕ
  begin_ : Option InternalKey
  end_ : Option InternalKey

/-- How far an open gets: it ends after so many tables and perhaps the new log; it ends
    after CURRENT names the new manifest; or it succeeds and cleans up. -/
inductive OpenOutcome where
  | stopped (tables : ℕ) (logCreated : Bool)
  | installed
  | ok (spared : Spared)

/-- The steps. -/
inductive Action where
  | beginWrite (ops : List Op)
  | logWrite (sync whole ok : Bool)
  | insert
  | publish
  | openLogFails (recorded : Bool)
  | beginRotate
  | endRotate (ok removed : Bool)
  | getSnapshot (address : ℕ)
  | releaseSnapshot (address : ℕ)
  | chargeSeek (key : Bytes) (snapshot : ℕ)
  | shutDown
  | background (manual : Option ManualCompaction)
  | nestedFlush
  | buildTable
  | compactEntry
  | finishWork
  | appendEdit
  | syncEdit (spared : Spared)
  | jobFails (whole took : Bool) (spared : Spared)
  | crash
  | open (others : Finset ℕ) (full : ℕ → ℕ → Bool) (outcome : OpenOutcome)

namespace Process

variable (opts : Options) (d : Disk) (p : Process)

/-! ## The writer at the front of the queue -/

/-- A group is formed (`src/db_impl.cpp`, lines 567–577); `make_room_for_write` has
    found no error. Sequences stay below `kMaxSequenceNumber`. -/
def beginWrite (ops : List Op) : Option Process :=
  match p.writer with
  | .idle =>
    if p.backgroundError = false ∧
        p.versions.lastSequence + ops.length < kMaxSequenceNumber then
      some { p with writer := .writing ⟨p.versions.lastSequence + 1, ops⟩ .started }
    else none
  | _ => none

/-- The record is appended and flushed or synced (lines 589–609). A failed call may
    leave the record whole in the file. -/
def logWrite (whole ok : Bool) : Option (Disk × Process) :=
  match p.writer with
  | .writing record .started =>
    if ok = true → whole = true then
      some (if whole then { d with records := d.records ++ [(p.logfileNumber, record)] } else d,
        { p with writer := .writing record (if ok then .logged else .failed) })
    else none
  | _ => none

/-- `insert_into` (lines 610–612). -/
def insert : Option Process :=
  match p.writer with
  | .writing record .logged =>
    some { p with
      mem := p.mem.insertAll record.entries
      writer := .writing record .inserted }
  | _ => none

/-- The last sequence moves past the group whatever its status (lines 643–652). -/
def publish : Option Process :=
  match p.writer with
  | .writing record .inserted =>
    some { p with
      versions := { p.versions with lastSequence := record.next - 1 }
      writer := .idle }
  | .writing record .failed =>
    some { p with
      versions := { p.versions with lastSequence := record.next - 1 }
      backgroundError := true
      writer := .idle }
  | _ => none

/-- A rotation whose new log cannot be opened gives the number back; `compact_range`
    records the failure (lines 806–809, 843–845, 1583–1590). -/
def openLogFails (recorded : Bool) : Option Process :=
  match p.writer with
  | .idle => some { p with backgroundError := p.backgroundError || recorded }
  | _ => none

/-- `kL0StopWritesTrigger`. -/
def kL0StopWritesTrigger : ℕ := 12

/-- A rotation creates the new log (`make_room_for_write`, lines 790–809). -/
def beginRotate : Option (Disk × Process) :=
  match p.writer, p.imm with
  | .idle, none =>
    if p.backgroundError = false ∧ (p.versions.files 0).length < kL0StopWritesTrigger then
      some (d.createLog p.versions.nextFileNumber,
        { p with
          versions := p.versions.takeNumber
          writer := .rotating p.versions.nextFileNumber })
    else none
  | _, _ => none

/-- The old log and the directory are synced and the new log takes over, or the new log
    goes again (lines 830–850). -/
def endRotate (ok removed : Bool) : Option (Disk × Process) :=
  match p.writer with
  | .rotating newLogNumber =>
    if ok then
      some (d, { p with
        mem := Lib.OrderedSet.empty
        imm := some p.mem
        logfileNumber := newLogNumber
        writer := .idle })
    else
      some (if removed then { d with logFiles := d.logFiles.erase newLogNumber } else d,
        { p with
          versions := p.versions.reuseFileNumber newLogNumber
          backgroundError := true
          writer := .idle })
  | _ => none

/-! ## Readers -/

/-- `get_snapshot`; a new object has an address of its own. -/
def getSnapshot (address : ℕ) : Option Process :=
  if address ∈ p.snapshots.objects.map (·.1) then none
  else some { p with snapshots := p.snapshots.getSnapshot address p.versions.lastSequence }

/-- `release_snapshot`. -/
def releaseSnapshot (address : ℕ) : Option Process :=
  (p.snapshots.releaseSnapshot address).map fun snapshots => { p with snapshots := snapshots }

/-- `Version::update_stats` where the file has used up its seeks (`src/version_set.cpp`,
    lines 350–361): it is marked unless one is. -/
def mark (file : Option (ℕ × FileMetaData)) : Process :=
  { p with versions := { p.versions with fileToCompact := p.versions.fileToCompact.or file } }

/-- A lookup uses up the seeks a file is allowed. -/
def chargeSeek (key : Bytes) (snapshot : ℕ) : Process :=
  p.mark (versionGet d.tables p.versions.files key snapshot).2

/-! ## The background thread -/

/-- `write_level0_table` takes a number for the table (lines 1252–1255). -/
def beginFlush (resume : Option Work) : Process :=
  { p with
    versions := p.versions.takeNumber
    pendingOutputs := Insert.insert p.versions.nextFileNumber p.pendingOutputs
    job := .building p.versions.nextFileNumber resume }

/-- The background thread enters `log_and_apply`. -/
def beginLog (edit : VersionEdit) (job : Logging → Job) : Process :=
  { p with
    versions := (p.versions.beginLog edit).2
    job := job (p.versions.beginLog edit).1 }

/-- `do_compaction_work` starts (lines 1133–1140). The inputs do not change any more, so
    the entries to come are settled. -/
def beginWork (c : Compaction) (manual : Bool) : Process :=
  { p with
    job := .working ⟨c, manual, p.snapshots.smallestSnapshot p.versions.lastSequence, .init,
      inputEntries d.tables c⟩ }

/-- `setup_other_inputs` moves the compact pointer at once (`src/version_set.cpp`,
    line 1184). -/
def setPointer (c : Compaction) : Process :=
  { p with versions := { p.versions with
      compactPointer := Function.update p.versions.compactPointer c.level (some c.largest) } }

/-- `background_compaction` once a compaction is picked, or none (lines 1115–1140): only
    an automatic one may be a trivial move. -/
def startCompaction (manual : Bool) : Option Compaction → Process
  | none => p
  | some c =>
    match manual, c.isTrivialMove, c.inputs0 with
    | false, true, f :: _ => (p.setPointer c).beginLog (c.moveEdit f) .moving
    | _, _, _ => (p.setPointer c).beginWork d c manual

/-- `background_loop` and `background_compaction` (lines 1062–1146) up to the first
    release of the mutex. -/
def background (manual : Option ManualCompaction) : Option Process :=
  match p.job with
  | .idle =>
    if p.backgroundError = false ∧ p.shuttingDown = false then
      match p.imm, manual with
      | some _, _ => some (p.beginFlush none)
      | none, some request =>
        if request.level + 1 < kNumLevels then
          some (p.startCompaction d true
            (compactRange opts p.versions request.level request.begin_ request.end_))
        else none
      | none, none => some (p.startCompaction d false (pickCompaction opts p.versions))
    else none
  | _ => none

/-- A flush in the middle of a compaction (lines 1372–1374). -/
def nestedFlush : Option Process :=
  match p.job, p.imm with
  | .working work, some _ =>
    if p.shuttingDown = false ∧ work.rest ≠ [] then some (p.beginFlush (some work)) else none
  | _, _ => none

/-- The edit of a flush (lines 1223–1229, 1267–1277). -/
def flushEdit (number : ℕ) (imm : MemTable) : VersionEdit :=
  let edit := match memTableFile opts number imm with
    | none => VersionEdit.empty
    | some f => VersionEdit.empty.addFile
        (pickLevelForMemtableOutput opts.maxFileSize p.versions.files f.smallest.userKey
          f.largest.userKey) f
  { edit with prevLogNumber := some 0, logNumber := some p.logfileNumber }

/-- The end of a compaction that does not install its outputs, or of the one a failed
    flush was nested in (lines 1377–1396, 1185–1196). -/
def abandon (work : Work) : Process :=
  { p with
    pendingOutputs := p.pendingOutputs \ (work.state.all.map (·.number)).toFinset
    job := .idle }

/-- A flush failed: the error is recorded whether or not the process is shutting down,
    and nothing is cleaned up. -/
def flushFails (resume : Option Work) : Process :=
  let p := { p with backgroundError := true, job := .idle }
  match resume with
  | none => p
  | some work => p.abandon work

/-- The table is built and synced (lines 1257–1277); a flush that finds the process
    shutting down fails. -/
def buildTable : Option (Disk × Process) :=
  match p.job, p.imm with
  | .building number resume, some imm =>
    let d := if imm.toList = [] then d else d.writeTable number imm.toList
    let p := { p with pendingOutputs := p.pendingOutputs.erase number }
    if p.shuttingDown then some (d, p.flushFails resume)
    else some (d, p.beginLog (p.flushEdit opts number imm) fun logging => .flushing logging resume)
  | _, _ => none

/-- One turn of the loop of `do_compaction_work` (lines 1405–1472). -/
def compactEntry : Option (Disk × Process) :=
  match p.job with
  | .working work =>
    match work.rest with
    | [] => none
    | e :: rest =>
      if p.shuttingDown then none
      else
        let number := p.versions.nextFileNumber
        let next := Ambar.compactEntry opts work.compaction work.smallestSnapshot number
          work.state e
        some (d.writeOutputs next.1.all,
          { p with
            versions := if next.2 then p.versions.takeNumber else p.versions
            pendingOutputs := if next.2 then Insert.insert number p.pendingOutputs
              else p.pendingOutputs
            job := .working { work with state := next.1, rest := rest } })
  | _ => none

/-- The loop is done and the results are installed (lines 1474–1489, 1161–1163). -/
def finishWork : Option Process :=
  match p.job with
  | .working work =>
    if work.rest = [] ∧ p.shuttingDown = false then
      let work := { work with state := work.state.finish }
      some (p.beginLog (work.compaction.installEdit opts work.state.outputs) fun logging =>
        .installing logging work)
    else none
  | _ => none

/-- The record is in the manifest, still to be synced. -/
def appendEdit : Option (Disk × Process) :=
  let append (logging : Logging) (job : Logging → Job) : Option (Disk × Process) :=
    if logging.appended then none
    else some ({ d with manifest := d.manifest ++ [logging.edit] },
      { p with job := job { logging with appended := true } })
  match p.job with
  | .flushing logging resume => append logging fun l => .flushing l resume
  | .moving logging => append logging .moving
  | .installing logging work => append logging fun l => .installing l work
  | _ => none

/-- The manifest is synced and the version installed (`src/version_set.cpp`,
    lines 679–682), then what the caller does after it. -/
def syncEdit (spared : Spared) : Option (Disk × Process) :=
  let install (logging : Logging) (after : Process → Process) : Option (Disk × Process) :=
    if logging.appended then
      let p := after { p with versions := p.versions.install logging.edit logging.files }
      some (removeObsoleteFiles d p spared, p)
    else none
  match p.job with
  | .flushing logging resume =>
    install logging fun p => { p with imm := none, job := .afterFlush resume }
  | .moving logging => install logging fun p => { p with job := .idle }
  | .installing logging work => install logging fun p => p.abandon work
  | _ => none

/-- The manifest after a failed call of `log_and_apply`: the record may be whole. -/
def failedManifest (logging : Logging) (whole : Bool) : Disk :=
  if logging.appended = false ∧ whole = true then
    { d with manifest := d.manifest ++ [logging.edit] }
  else d

/-- The end of a compaction or move that failed: the error is recorded unless the
    process is shutting down, then the cleanup runs (lines 1193–1196). -/
def jobFailed (spared : Spared) : Disk × Process :=
  let p := { p with backgroundError := p.backgroundError || !p.shuttingDown, job := .idle }
  (removeObsoleteFiles d p spared, p)

/-- A call of the background thread fails, or the loop finds the process shutting down.
    An output whose file cannot be opened has taken a number. -/
def jobFails (whole took : Bool) (spared : Spared) : Option (Disk × Process) :=
  match p.job with
  | .idle => none
  | .building number resume =>
    some (d, { p with pendingOutputs := p.pendingOutputs.erase number }.flushFails resume)
  | .flushing logging resume => some (failedManifest d logging whole, p.flushFails resume)
  | .moving logging => some (jobFailed (failedManifest d logging whole) p spared)
  | .working work =>
    some (jobFailed d { p.abandon work with
      versions := if took then p.versions.takeNumber else p.versions } spared)
  | .installing logging work =>
    some (jobFailed (failedManifest d logging whole) (p.abandon work) spared)

/-- The steps of a process. -/
def step : Action → Option (Disk × Process)
  | .beginWrite ops => (p.beginWrite ops).map (d, ·)
  | .logWrite _ whole ok => p.logWrite d whole ok
  | .insert => p.insert.map (d, ·)
  | .publish => p.publish.map (d, ·)
  | .openLogFails recorded => (p.openLogFails recorded).map (d, ·)
  | .beginRotate => p.beginRotate d
  | .endRotate ok removed => p.endRotate d ok removed
  | .getSnapshot address => (p.getSnapshot address).map (d, ·)
  | .releaseSnapshot address => (p.releaseSnapshot address).map (d, ·)
  | .chargeSeek key snapshot => some (d, p.chargeSeek d key snapshot)
  | .shutDown => some (d, { p with shuttingDown := true })
  | .background manual => (p.background opts d manual).map (d, ·)
  | .nestedFlush => p.nestedFlush.map (d, ·)
  | .buildTable => p.buildTable opts d
  | .compactEntry => p.compactEntry opts d
  | .finishWork => (p.finishWork opts).map (d, ·)
  | .appendEdit => p.appendEdit d
  | .syncEdit spared => p.syncEdit d spared
  | .jobFails whole took spared => p.jobFails d whole took spared
  | .crash => none
  | .open _ _ _ => none

end Process

/-! ## Opening -/

/-- `recover_log_file` (lines 328–427) on the records of a log: the memtables it fills;
    `full i` says whether the memtable is cut after the record `i`. -/
def replayLog (full : ℕ → Bool) : (index : ℕ) → Option MemTable → List LogRecord → List MemTable
  | _, mem, [] => mem.toList
  | index, mem, record :: records =>
    let mem := (mem.getD Lib.OrderedSet.empty).insertAll record.entries
    if full index then mem :: replayLog full (index + 1) none records
    else replayLog full (index + 1) (some mem) records

/-- The numbers recovery gives the memtables of the logs, and the next number
    (`mark_file_number_used` moves it past each log, lines 316–320). -/
def numberTables : (next : ℕ) → List (ℕ × List MemTable) → List (ℕ × MemTable) × ℕ
  | next, [] => ([], next)
  | next, (log, mems) :: rest =>
    let here := mems.zipIdx.map fun m => (next + m.2, m.1)
    let (there, last) := numberTables (max (next + mems.length) (log + 1)) rest
    (here ++ there, last)

/-- The largest sequence of the records (lines 366–374). -/
def maxSequence (records : List LogRecord) : ℕ :=
  records.foldl (fun m r => if r.ops = [] then m else max m (r.next - 1)) 0

/-- The logs that recovery replays, in increasing order (lines 291–322). -/
def Disk.logsToReplay (d : Disk) (v : VersionSet) : List ℕ :=
  (List.range (d.logFiles.sup id + 1)).filter fun n =>
    decide (n ∈ d.logFiles ∧ (v.logNumber ≤ n ∨ n = v.prevLogNumber))

/-- What recovery works out before it writes anything: the version set of the manifest,
    the memtables of the logs with their numbers, the number after them, and the last
    sequence. -/
structure Recovery where
  versions : VersionSet
  written : List (ℕ × MemTable)
  next : ℕ
  lastSequence : ℕ

/-- `DBImpl::recover` (lines 242–326); it refuses a manifest that names a table with no
    file of its number in the directory. -/
def Disk.recover (d : Disk) (others : Finset ℕ) (full : ℕ → ℕ → Bool) : Except Status Recovery :=
  match finishRecover VersionSet.init d.manifestNumber
      (d.manifest.foldl Replay.apply (Replay.init VersionSet.init)) with
  | .error status => .error status
  | .ok v =>
    if ∀ n ∈ liveFiles v.files, n ∈ d.tableFiles ∨ n ∈ d.logFiles ∨ n = d.manifestNumber ∨ n ∈ others then
      let logs := d.logsToReplay v
      let numbered := numberTables v.nextFileNumber
        (logs.map fun n => (n, replayLog (full n) 0 none (d.log n)))
      .ok ⟨v, numbered.1, numbered.2,
        max v.lastSequence (maxSequence (logs.flatMap d.log))⟩
    else .error (.corruption "the manifest references missing table file(s)")

namespace Recovery

variable (opts : Options) (r : Recovery)

/-- The tables of the memtables that are not empty. -/
def outputs : List Output :=
  r.written.filterMap fun w =>
    match w.2.toList.head?, w.2.toList.getLast? with
    | some first, some last => some ⟨w.1, first.key, last.key, w.2.toList⟩
    | _, _ => none

/-- The edit of the open (lines 429–477). -/
def edit : VersionEdit :=
  { VersionEdit.empty with
    newFiles := r.outputs.map fun o => (0, o.file opts)
    prevLogNumber := some 0
    logNumber := some r.next }

/-- The version set when `log_and_apply` is called: the new log has its number. -/
def ready : VersionSet :=
  { r.versions with nextFileNumber := r.next + 1, lastSequence := r.lastSequence }

/-- The process once the open has succeeded. -/
def process : Process where
  mem := Lib.OrderedSet.empty
  imm := none
  logfileNumber := r.next
  versions := (r.ready.logAndApply (r.edit opts)).1
  pendingOutputs := ∅
  backgroundError := false
  shuttingDown := false
  snapshots := .empty
  writer := .idle
  job := .idle

/-- The directory once CURRENT names the new manifest. -/
def install (d : Disk) : Disk :=
  { (d.writeOutputs r.outputs).createLog r.next with
    manifest := [r.ready.writeSnapshot, (r.ready.logAndApply (r.edit opts)).2]
    manifestNumber := r.versions.manifestFileNumber }

end Recovery

/-- `DB::open` (lines 429–487). -/
def Disk.open (opts : Options) (d : Disk) (others : Finset ℕ) (full : ℕ → ℕ → Bool)
    (outcome : OpenOutcome) : Option (Disk × Option Process) :=
  match d.recover others full with
  | .error _ => none
  | .ok r =>
    match outcome with
    | .stopped tables logCreated =>
      let d := d.writeOutputs (r.outputs.take tables)
      some (if logCreated then d.createLog r.next else d, none)
    | .installed => some (r.install opts d, none)
    | .ok spared =>
      some (removeObsoleteFiles (r.install opts d) (r.process opts) spared,
        some (r.process opts))

/-! ## The whole -/

namespace Engine

/-- The engine with the process's version counted as installed. -/
def record (e : Engine) (d : Disk) (p : Option Process) : Engine where
  disk := d
  installed := match p with
    | none => e.installed
    | some p => e.installed ∪ (liveFiles p.versions.files).toFinset
  process := p

/-- One step. -/
def step (opts : Options) (e : Engine) (a : Action) : Option Engine :=
  match e.process, a with
  | some _, .crash => some (e.record e.disk none)
  | some p, a => (p.step opts e.disk a).map fun s => e.record s.1 (some s.2)
  | none, .open others full outcome =>
    (e.disk.open opts others full outcome).map fun s => e.record s.1 s.2
  | none, _ => none

/-- A database just created by `new_db`. -/
def created : Engine where
  disk := ⟨fun _ => [], ∅, [], ∅, [newDbEdit], 1⟩
  installed := ∅
  process := none

end Engine

/-! ## The steps of whole calls -/

namespace Action

/-- A write with `sync` where every call succeeds. -/
def write (ops : List Op) : List Action :=
  [beginWrite ops, logWrite true true true, insert, publish]

/-- A rotation where every call succeeds. -/
def rotate : List Action := [beginRotate, endRotate true true]

/-- A flush in its own turn of the background thread. -/
def flush : List Action := [background none, buildTable, appendEdit, syncEdit ⟨∅, ∅⟩]

/-- An open that succeeds, with no memtable cut and nothing spared by its cleanup. -/
def openAll : Action := .open ∅ (fun _ _ => false) (.ok ⟨∅, ∅⟩)

end Action

end Ambar
