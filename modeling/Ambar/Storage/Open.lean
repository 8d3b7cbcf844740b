import Ambar.Engine.Directory
import Ambar.Storage.FileSystem

/-!
# Opening a database, call by call

The programs that write CURRENT and the manifests: `set_current_file`
(`src/filename.cpp`), `new_db`, `recover`, `DB::open` and `remove_obsolete_files`
(`src/db_impl.cpp`), and `VersionSet::recover` and `log_and_apply`
(`src/version_set.cpp`), over the calls of the file system. A log that is replayed becomes
tables before the edit of the open is written.

`process` is all that a process does with the manifests of a database: it opens it, and
then installs edits and cleans up, in any order.
-/

namespace Ambar.Storage

/-! ## CURRENT -/

/-- `set_current_file` (`src/filename.cpp`, lines 126–161). -/
def setCurrentFile (number : ℕ) : Fs Unit :=
  let temp := Path.db (tempFileName number)
  Fs.onFailure (do
    Fs.openWrite temp
    Fs.write temp [.text (descriptorFileName number), .text ['\n']]
    Fs.close temp
    Fs.rename temp (.db currentFileName)
    Fs.syncDirectory) (Fs.remove temp)

/-- The characters of a file of text. -/
def textOf : List Piece → Option (List Char)
  | [] => some []
  | .text t :: pieces => (textOf pieces).map (t ++ ·)
  | _ :: _ => none

/-- What `read_current` (`src/version_set.cpp`, lines 825–866) makes of the contents. -/
def parseCurrent (pieces : List Piece) : Except Status FileName :=
  match textOf pieces with
  | none => .error (.corruption "CURRENT does not end in a newline")
  | some contents =>
    if contents.getLast? ≠ some '\n' then
      .error (.corruption "CURRENT does not end in a newline")
    else
      let name := contents.dropLast
      if '/' ∈ name ∨ '\\' ∈ name ∨ (parseFileName name).map Prod.snd ≠ some .descriptor then
        .error (.corruption "CURRENT does not name a manifest in this directory")
      else .ok name

def readCurrent : Fs FileName := do
  let (pieces, failure) ← Fs.read (.db currentFileName)
  match failure with
  | some status => throw status
  | none => Fs.ofExcept (parseCurrent pieces)

/-! ## Manifests -/

/-- `new_db` (`src/db_impl.cpp`, lines 209–240). -/
def newDb : Fs Unit := do
  let manifest := Path.db (descriptorFileName 1)
  Fs.openWrite manifest
  Fs.onFailure (do
    Fs.write manifest [.record newDbEdit]
    Fs.close manifest) (Fs.remove manifest)
  setCurrentFile 1

/-- The records that a reader of a manifest delivers, and whether more follow what stopped
    it. -/
def recordsOf : List Piece → List VersionEdit × Bool
  | .record edit :: pieces =>
    let (edits, damaged) := recordsOf pieces
    (edit :: edits, damaged)
  | pieces => ([], pieces.any fun
    | .record _ => true
    | _ => false)

/-- What `VersionSet::recover` makes of the records of the manifest `base`, and of whether more
    follow. The reader's reason is left out of the text. -/
def recoverEdits (base : FileName) (edits : List VersionEdit) (damaged : Bool) :
    Except Status VersionSet :=
  match edits.findSome? fun e => e.comparator.filter (· ≠ internalComparatorName) with
  | some name => .error (.invalidArgument ("database was written with comparator '" ++ name.toMessage ++
      "' but is being opened with '" ++ internalComparatorName.toMessage ++ "'"))
  | none =>
    if damaged then
      .error (.corruption ("manifest " ++ String.ofList base ++
        " stops before its end and not at a torn tail: records or unread bytes follow, so " ++
        "opening would roll the database back past them and delete what they name"))
    else finishRecover VersionSet.init ((parseFileName base).elim 0 Prod.fst) (replayEdits edits)

/-- `VersionSet::recover` (`src/version_set.cpp`, lines 871–1019). A failed read is damage, as
    records that follow what cannot be read are (`src/wal.cpp`, lines 100–110). -/
def recoverVersions : Fs VersionSet := do
  let base ← readCurrent
  match ← ExceptT.lift (Fs.read (.db base)).run with
  | .error _ =>
    throw (.corruption ("CURRENT names a manifest that will not open: " ++ String.ofList base))
  | .ok (pieces, failure) =>
    let (edits, damaged) := recordsOf pieces
    Fs.ofExcept (recoverEdits base edits (damaged || failure.isSome))

/-- The calls of `log_and_apply` (lines 643–674); `first` says that this is the process's
    first edit, which goes to a new manifest. -/
def writeManifest (v : VersionSet) (first : Bool) (edit : VersionEdit) : Fs Unit := do
  let manifest := Path.db (descriptorFileName v.manifestFileNumber)
  if first then
    Fs.openWrite manifest
    Fs.write manifest [.record v.writeSnapshot, .record edit]
    setCurrentFile v.manifestFileNumber
  else
    Fs.write manifest [.record edit]

/-- What a failed first edit does with its manifest (lines 684–709). -/
def dropManifest (v : VersionSet) : Fs Unit := do
  match ← ExceptT.lift readCurrent.run with
  | .ok named =>
    if named ≠ descriptorFileName v.manifestFileNumber then
      Fs.remove (.db (descriptorFileName v.manifestFileNumber))
  | .error _ => pure ()

/-- `log_and_apply` (lines 617–713). -/
def logAndApply (v : VersionSet) (first : Bool) (edit : VersionEdit) : Fs VersionSet := do
  Fs.onFailure (writeManifest v first (v.completeEdit edit)) (if first then dropManifest v else pure ())
  pure (v.logAndApply edit).1

/-! ## The other files -/

/-- `build_table` (`src/builder.cpp`, lines 14–75); a table is as large as its number of
    entries. -/
def buildTable (number : ℕ) (entries : List Entry) : Fs Unit := do
  let path := Path.db (tableFileName number)
  if entries ≠ [] then
    Fs.openWrite path
    Fs.onFailure (do
      Fs.write path (entries.map .entry)
      Fs.close path
      Fs.syncDirectory
      let (_, failure) ← Fs.read path
      match failure with
      | some status => throw status
      | none => pure ()) (Fs.remove path)

/-- `write_level0_table` (`src/db_impl.cpp`, lines 1250–1284) as recovery calls it. -/
def writeLevel0Table (mem : MemTable) (s : Replayed) : Fs Replayed := do
  let number := s.versions.nextFileNumber
  buildTable number mem.toList
  let edit := match mem.toList.head?, mem.toList.getLast? with
    | some first, some last =>
      s.edit.addFile 0 ⟨number, mem.toList.length, first.key, last.key⟩
    | _, _ => s.edit
  pure { s with versions := s.versions.takeNumber, edit := edit }

/-- The memtable that is left at the end of a log, if there is one. -/
def writeLast (mem : Option MemTable) (s : Replayed) : Fs Replayed :=
  mem.elim (pure s) fun mem => writeLevel0Table mem s

/-- The end of `recover_log_file` (lines 391–425): an error if unread bytes follow. -/
def finishLog (log : ℕ) (damaged : Bool) (mem : Option MemTable) (s : Replayed) : Fs Replayed := do
  if damaged then
    throw (.corruption ("log " ++ toString log ++
      " stops before its end and not at a torn tail: records or unread bytes follow, and " ++
      "replaying up to the stop would silently drop the writes they hold"))
  writeLast mem s

/-- `recover_log_file` (lines 337–427) on what is left of a log; `full` says after which
    records the memtable is written out, and `failed` that the read did not come to the end. -/
def replayPieces (log : ℕ) (full : ℕ → Bool) (failed : Bool) :
    ℕ → Option MemTable → List Piece → Replayed → Fs Replayed
  | index, mem, .batch record :: pieces, s => do
    let mem := (mem.getD Lib.OrderedSet.empty).insertAll record.entries
    let s := { s with
      maxSequence := if record.ops = [] then s.maxSequence else max s.maxSequence (record.next - 1) }
    if full index then
      let s ← writeLevel0Table mem s
      replayPieces log full failed (index + 1) none pieces s
    else replayPieces log full failed (index + 1) (some mem) pieces s
  | _, mem, [], s => finishLog log failed mem s
  | _, mem, .part :: pieces, s =>
    let follows := pieces.any fun
      | .part => false
      | _ => true
    finishLog log (follows || failed) mem s
  | _, _, _ :: _, _ => throw (.corruption "log record is too short to be a batch")

def recoverLogFile (full : ℕ → ℕ → Bool) (s : Replayed) (log : ℕ) : Fs Replayed := do
  let (pieces, failure) ← Fs.read (.db (logFileName log))
  let s ← replayPieces log (full log) failure.isSome 0 none pieces s
  pure { s with versions := { s.versions with
    nextFileNumber := max s.versions.nextFileNumber (log + 1) } }

/-- Whether `remove_obsolete_files` keeps a file of this name (lines 1511–1533). -/
def keeps (v : VersionSet) (live : Finset ℕ) (name : FileName) : Bool :=
  match parseFileName name with
  | none => true
  | some (number, .log) => v.logNumber ≤ number ∨ number = v.prevLogNumber
  | some (number, .descriptor) => v.manifestFileNumber ≤ number
  | some (number, .table) => number ∈ live
  | some (number, .temp) => number ∈ live
  | some (_, .current) | some (_, .lock) | some (_, .infoLog) => true

/-- `remove_obsolete_files` (lines 1491–1546). -/
def removeObsoleteFiles (v : VersionSet) (live : Finset ℕ) : Fs Unit := do
  match ← ExceptT.lift Fs.listDirectory.run with
  | .error _ => pure ()
  | .ok names => (names.filter fun name => !keeps v live name).forM fun name => Fs.remove (.db name)

/-! ## Opening -/

/-- The start of `recover` (lines 242–289): a database is created where none is. -/
def findDb (dbname : String) (opts : OpenOptions) : Fs Unit := do
  Fs.createDirectory
  Fs.lockFile
  if (← Fs.pathType (.db currentFileName)) = .missing then
    if !opts.createIfMissing then
      throw (.invalidArgument
        ("database does not exist in '" ++ dbname ++ "' and create_if_missing is false"))
    let names ← Fs.listDirectory
    if 0 < countDataFiles names then
      throw (.corruption ("'" ++ dbname ++ "' has no CURRENT file but holds " ++
        toString (countDataFiles names) ++
        " table or log file(s): this is a database whose CURRENT was lost, " ++
        "not an empty directory, and creating a new database over it would " ++
        "delete them.  To start over, remove the directory."))
    newDb
  else if opts.errorIfExists then
    throw (.invalidArgument
      ("database already exists in '" ++ dbname ++ "' and error_if_exists is true"))

/-- The rest of `recover` (lines 286–335). -/
def recoverDb (full : ℕ → ℕ → Bool) : Fs Replayed := do
  let v ← recoverVersions
  let names ← Fs.listDirectory
  let logs ← Fs.ofExcept (checkListing v names)
  let s ← logs.foldlM (recoverLogFile full) ⟨v, VersionEdit.empty, 0⟩
  pure { s with versions := { s.versions with
    lastSequence := max s.versions.lastSequence s.maxSequence } }

/-- `DB::open` (lines 429–487). -/
def openDb (dbname : String) (opts : OpenOptions) (full : ℕ → ℕ → Bool) : Fs VersionSet := do
  findDb dbname opts
  let s ← recoverDb full
  let number := s.versions.nextFileNumber
  Fs.openWrite (.db (logFileName number))
  let v ← logAndApply s.versions.takeNumber true
    { s.edit with prevLogNumber := some 0, logNumber := some number }
  removeObsoleteFiles v (liveFiles v.files).toFinset
  pure v

/-- What a process does with the manifest of an open database: an edit, with the counters
    as they are then, or a cleanup. -/
inductive Action where
  | edit (edit : VersionEdit) (nextFileNumber lastSequence : ℕ)
  | cleanup (live : Finset ℕ)

def act (v : VersionSet) : Action → Fs VersionSet
  | .edit edit nextFileNumber lastSequence => do
    let v := { v with nextFileNumber := nextFileNumber, lastSequence := lastSequence }
    match ← ExceptT.lift (logAndApply v false edit).run with
    | .ok v => pure v
    | .error _ => pure v
  | .cleanup live => do
    removeObsoleteFiles v live
    pure v

def process (dbname : String) (opts : OpenOptions) (full : ℕ → ℕ → Bool) (actions : List Action) :
    Fs VersionSet := do
  let v ← openDb dbname opts full
  actions.foldlM act v

end Ambar.Storage
