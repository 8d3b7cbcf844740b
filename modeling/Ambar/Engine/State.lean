import Ambar.Format.WriteBatch
import Ambar.Compaction.Views
import Ambar.Read.DbIter

/-!
# The state of the engine

What is on disk and what a process holds (`src/db_impl.hpp`, lines 93–176). The
mutex is released in the middle of writes, rotations, flushes, compactions and
installs of an edit; the writer at the front of the queue and the one background
thread each stand at one of these points.

A table keeps its contents in `Disk.tables` when its file is removed, and so do the
records of a log: only the names leave the directory.
-/

namespace Ambar

/-- The directory of a database: what each table file holds, the records appended to
    its logs (with the number of the log, oldest first), the names present, and the
    edits in the manifest that CURRENT names. -/
structure Disk where
  tables : Tables
  tableFiles : Finset ℕ
  records : List (ℕ × LogRecord)
  logFiles : Finset ℕ
  manifest : List VersionEdit
  manifestNumber : ℕ

/-- The records of one log. -/
def Disk.log (d : Disk) (number : ℕ) : List LogRecord :=
  (d.records.filter fun r => decide (r.1 = number)).map (·.2)

/-- A log is opened for writing: a file of that name loses what it held. -/
def Disk.createLog (d : Disk) (number : ℕ) : Disk :=
  { d with
    records := d.records.filter fun r => decide (r.1 ≠ number)
    logFiles := insert number d.logFiles }

/-- A table is written. -/
def Disk.writeTable (d : Disk) (number : ℕ) (entries : List Entry) : Disk :=
  { d with
    tables := Function.update d.tables number entries
    tableFiles := insert number d.tableFiles }

/-- The outputs of a compaction, as far as they are written. -/
def Disk.writeOutputs (d : Disk) (outputs : List Output) : Disk :=
  { d with
    tables := Ambar.writeOutputs d.tables outputs
    tableFiles := d.tableFiles ∪ (outputs.map (·.number)).toFinset }

/-! ## The two threads -/

/-- Where a write stands (`src/db_impl.cpp`, lines 571–638): the group is formed; its
    record is in the log; it is in the memtable; or the log write failed. -/
inductive WriteStage where
  | started
  | logged
  | inserted
  | failed
deriving DecidableEq, Repr

/-- The writer at the front of the queue: between two writes, writing a group, or
    rotating with the new log created. -/
inductive Writer where
  | idle
  | writing (record : LogRecord) (stage : WriteStage)
  | rotating (newLogNumber : ℕ)

/-- A call of `log_and_apply` with the mutex released: the completed edit, the version
    built from it, and whether the record is in the manifest. -/
structure Logging where
  edit : VersionEdit
  files : Levels
  appended : Bool

/-- A run of `do_compaction_work`: its state and the entries still to come. -/
structure Work where
  compaction : Compaction
  manual : Bool
  smallestSnapshot : ℕ
  state : CompactionState
  rest : List Entry

/-- What the background thread does. A flush may be nested in a compaction, to which
    it returns. -/
inductive Job where
  | idle
  | building (number : ℕ) (resume : Option Work)
  | flushing (logging : Logging) (resume : Option Work)
  | moving (logging : Logging)
  | working (work : Work)
  | installing (logging : Logging) (work : Work)

/-- What the background thread does after a flush. -/
def Job.afterFlush : Option Work → Job
  | none => .idle
  | some work => .working work

/-- The process that has the database open (`src/db_impl.hpp`, lines 118–176). -/
structure Process where
  mem : MemTable
  imm : Option MemTable
  logfileNumber : ℕ
  versions : VersionSet
  pendingOutputs : Finset ℕ
  backgroundError : Bool
  shuttingDown : Bool
  snapshots : Snapshots
  writer : Writer
  job : Job

/-- The database and the process, if one has it open. `installed` remembers the
    numbers of the tables that edits in the manifest have named. -/
structure Engine where
  disk : Disk
  installed : Finset ℕ
  process : Option Process

/-! ## Shared pieces -/

namespace VersionSet

/-- `new_file_number` (`src/version_set.hpp`, line 173): the counter moves on. -/
def takeNumber (v : VersionSet) : VersionSet := { v with nextFileNumber := v.nextFileNumber + 1 }

/-- `reuse_file_number` (lines 178–180). -/
def reuseFileNumber (v : VersionSet) (number : ℕ) : VersionSet :=
  if v.nextFileNumber = number + 1 then { v with nextFileNumber := number } else v

/-- `log_and_apply` up to the point where it releases the mutex (`src/version_set.cpp`,
    lines 618–635): the builder has moved the compact pointers. -/
def beginLog (v : VersionSet) (edit : VersionEdit) : Logging × VersionSet :=
  let edit := v.completeEdit edit
  (⟨edit, v.applyEdit edit, false⟩,
    { v with compactPointer := setPointers v.compactPointer edit })

end VersionSet

/-- The numbers of the files of a version (`add_live_files`). -/
def liveFiles (files : Levels) : List ℕ :=
  (List.range kNumLevels).flatMap fun level => (files level).map (·.number)

/-- What a cleanup leaves although it is obsolete: files of older versions that readers
    still use, and files that could not be removed. -/
structure Spared where
  tables : Finset ℕ
  logs : Finset ℕ

/-- `remove_obsolete_files` (`src/db_impl.cpp`, lines 1491–1546). -/
def removeObsoleteFiles (d : Disk) (p : Process) (spared : Spared) : Disk :=
  if p.backgroundError then d
  else
    { d with
      tableFiles := d.tableFiles.filter fun n =>
        n ∈ p.pendingOutputs ∨ n ∈ liveFiles p.versions.files ∨ n ∈ spared.tables
      logFiles := d.logFiles.filter fun n =>
        p.versions.logNumber ≤ n ∨ n = p.versions.prevLogNumber ∨ n ∈ spared.logs }

/-- The metadata of the table built from a memtable; an empty one leaves no table
    (`src/builder.cpp`). -/
def memTableFile (opts : Options) (number : ℕ) (mem : MemTable) : Option FileMetaData :=
  match mem.toList.head?, mem.toList.getLast? with
  | some first, some last => some ⟨number, opts.tableSize mem.toList, first.key, last.key⟩
  | _, _ => none

end Ambar
