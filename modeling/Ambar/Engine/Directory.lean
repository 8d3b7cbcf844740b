import Ambar.Engine.Recovery
import Ambar.Format.FileName
import Mathlib.Data.Finset.Max
import Mathlib.Data.List.Sort

/-!
# Recovery and the directory

`DBImpl::recover` (`src/db_impl.cpp`, lines 242–336) as `DB::open` calls it, with the
names it finds in the directory. The tables of the version that the manifest gives are
expected to be there: every name that parses takes its number from those expected,
whatever kind of file it is.

* `checkListing_eq_ok`: the check passes if every expected number is some file's.
* `recover_refuses_missing_iff`: when a missing table is noticed.
-/

namespace Ambar

/-! ## The model -/

/-- What `recover` has of the options. -/
structure OpenOptions where
  createIfMissing : Bool
  errorIfExists : Bool

/-- A database's name, and the answers of the calls that `recover` makes before it replays
    a log: the directory created, the lock taken, whether CURRENT is there, the names found before a database
    is created over them, `new_db`, the number and the records of the manifest that
    CURRENT names, and the names found once it has been read. -/
structure Directory where
  dbname : String
  createDirectory : Except Status Unit
  acquireLock : Except Status Unit
  currentExists : Bool
  namesBefore : Except Status (List FileName)
  newDb : Except Status Unit
  manifest : Except Status (ℕ × List Bytes)
  names : Except Status (List FileName)

/-- What the replay of logs works on: the version set, the edit of the open, and the
    largest sequence so far. -/
structure Replayed where
  versions : VersionSet
  edit : VersionEdit
  maxSequence : ℕ

/-- `count_data_files` (lines 62–74) on the names. -/
def countDataFiles (names : List FileName) : ℕ :=
  names.countP fun name =>
    match parseFileName name with
    | some (_, type) => type = .table ∨ type = .log
    | none => false

/-- Up to the version set of the manifest (lines 243–289). -/
def Directory.versions (dir : Directory) (opts : OpenOptions) : Except Status VersionSet := do
  dir.createDirectory
  dir.acquireLock
  if !dir.currentExists then
    if !opts.createIfMissing then
      throw (.invalidArgument
        ("database does not exist in '" ++ dir.dbname ++ "' and create_if_missing is false"))
    let before ← dir.namesBefore
    if 0 < countDataFiles before then
      throw (.corruption ("'" ++ dir.dbname ++ "' has no CURRENT file but holds " ++
        toString (countDataFiles before) ++
        " table or log file(s): this is a database whose CURRENT was lost, " ++
        "not an empty directory, and creating a new database over it would " ++
        "delete them.  To start over, remove the directory."))
    dir.newDb
  else if opts.errorIfExists then
    throw (.invalidArgument
      ("database already exists in '" ++ dir.dbname ++ "' and error_if_exists is true"))
  let (own, records) ← dir.manifest
  recover own records

/-- The loop over the names (lines 304–312): the numbers still expected and the logs. -/
def scanNames (v : VersionSet) (names : List FileName) : Finset ℕ × List ℕ :=
  names.foldl (fun s name =>
    match parseFileName name with
    | none => s
    | some (number, type) =>
      (s.1.erase number,
        if type = .log ∧ (v.logNumber ≤ number ∨ number = v.prevLogNumber) then s.2 ++ [number]
        else s.2))
    ((liveFiles v.files).toFinset, [])

/-- The message of lines 318–321. -/
def missingMessage (expected : Finset ℕ) : String :=
  "the manifest references " ++ toString expected.card ++
    " missing table file(s), the first being " ++ toString (expected.min.untopD 0) ++ ".sst"

/-- The check of the names (lines 297–324): the logs to replay, in order. -/
def checkListing (v : VersionSet) (names : List FileName) : Except Status (List ℕ) :=
  let (expected, logs) := scanNames v names
  if expected ≠ ∅ then .error (.corruption (missingMessage expected))
  else .ok (logs.insertionSort (· ≤ ·))

section

variable (recoverLogFile : ℕ → Replayed → Except Status Replayed)

/-- The loop over the logs (lines 325–330). -/
def replayLogs : List ℕ → Replayed → Except Status Replayed
  | [], s => .ok s
  | log :: logs, s =>
    match recoverLogFile log s with
    | .error status => .error status
    | .ok s => replayLogs logs
        { s with versions := { s.versions with
            nextFileNumber := max s.versions.nextFileNumber (log + 1) } }

/-- `DBImpl::recover`, with what `recover_log_file` does with a log. -/
def Directory.recover (dir : Directory) (opts : OpenOptions) : Except Status Replayed := do
  let v ← dir.versions opts
  let names ← dir.names
  let logs ← checkListing v names
  let s ← replayLogs recoverLogFile logs ⟨v, VersionEdit.empty, 0⟩
  return { s with versions := { s.versions with
    lastSequence := max s.versions.lastSequence s.maxSequence } }

/-- `DB::open` (lines 429–487); `install` is what it does once recovery has succeeded. -/
def Directory.openDb (install : Replayed → Except Status Unit) (dir : Directory)
    (opts : OpenOptions) : Except Status Unit := do
  let s ← dir.recover recoverLogFile opts
  install s

end

/-! ## The check -/

/-- No table file of this number is among the names. -/
def NoTableFile (names : List FileName) (number : ℕ) : Prop :=
  ∀ name ∈ names, parseFileName name ≠ some (number, .table)

/-- No file of this number, of any type, is among the names. -/
def NoFile (names : List FileName) (number : ℕ) : Prop :=
  ∀ name ∈ names, ∀ type, parseFileName name ≠ some (number, type)

instance (names : List FileName) (number : ℕ) : Decidable (NoTableFile names number) :=
  inferInstanceAs (Decidable (∀ name ∈ names, _))

theorem noFile_iff {names : List FileName} {number : ℕ} :
    NoFile names number ↔ ∀ name ∈ names, (parseFileName name).map Prod.fst ≠ some number := by
  refine forall₂_congr fun name _ => ?_
  cases parseFileName name with
  | none => simp
  | some parsed =>
    obtain ⟨n, type⟩ := parsed
    simp

instance (names : List FileName) (number : ℕ) : Decidable (NoFile names number) :=
  decidable_of_iff _ noFile_iff.symm

theorem scanNames_append (v : VersionSet) (names : List FileName) (name : FileName) :
    scanNames v (names ++ [name]) =
      match parseFileName name with
      | none => scanNames v names
      | some (number, type) =>
        ((scanNames v names).1.erase number,
          if type = .log ∧ (v.logNumber ≤ number ∨ number = v.prevLogNumber) then
            (scanNames v names).2 ++ [number]
          else (scanNames v names).2) := by
  rw [scanNames, List.foldl_append]
  rfl

theorem mem_scanNames {v : VersionSet} {names : List FileName} {number : ℕ} :
    number ∈ (scanNames v names).1 ↔ number ∈ liveFiles v.files ∧ NoFile names number := by
  -- the names are taken one after the other, so the induction is from the back
  induction names using List.reverseRecOn with
  | nil => simp [scanNames, NoFile]
  | append_singleton names name ih =>
    have hsnoc : NoFile (names ++ [name]) number ↔
        NoFile names number ∧ ∀ type, parseFileName name ≠ some (number, type) := by
      simp only [NoFile, List.mem_append, List.mem_singleton, or_imp, forall_and, forall_eq]
    rw [hsnoc, ← and_assoc, ← ih, scanNames_append]
    cases hparse : parseFileName name with
    | none => simp
    | some parsed =>
      obtain ⟨n, type⟩ := parsed
      simp only [Finset.mem_erase, ne_eq, Option.some.injEq, Prod.mk.injEq, not_and]
      constructor
      · rintro ⟨hne, hmem⟩
        exact ⟨hmem, fun _ heq => absurd heq.symm hne⟩
      · rintro ⟨hmem, hall⟩
        exact ⟨fun heq => hall type heq.symm rfl, hmem⟩

/-- **What the check asks for**: for each table a file of its number, of any type. -/
theorem checkListing_eq_ok {v : VersionSet} {names : List FileName} :
    (∃ logs, checkListing v names = .ok logs) ↔
      ∀ number ∈ liveFiles v.files, ¬ NoFile names number := by
  have hempty : (scanNames v names).1 = ∅ ↔ ∀ number ∈ liveFiles v.files, ¬ NoFile names number := by
    simp only [Finset.eq_empty_iff_forall_notMem, mem_scanNames, not_and]
  unfold checkListing
  simp only
  rw [← hempty]
  by_cases h : (scanNames v names).1 = ∅
  · rw [if_neg (not_not.mpr h)]
    exact ⟨fun _ => h, fun _ => ⟨_, rfl⟩⟩
  · rw [if_pos h]
    exact ⟨fun ⟨_, heq⟩ => (nomatch heq), fun heq => absurd heq h⟩

/-! ## Missing tables -/

section

variable {recoverLogFile : ℕ → Replayed → Except Status Replayed}
  {install : Replayed → Except Status Unit} {dir : Directory} {opts : OpenOptions} {v : VersionSet}
  {names : List FileName}

theorem Directory.recover_eq (hv : dir.versions opts = .ok v) (hnames : dir.names = .ok names) :
    (∃ status, dir.recover recoverLogFile opts = .error status) ↔
      (∃ number ∈ liveFiles v.files, NoFile names number) ∨
        ∃ logs status, checkListing v names = .ok logs ∧
          replayLogs recoverLogFile logs ⟨v, VersionEdit.empty, 0⟩ = .error status := by
  have hcheck := @checkListing_eq_ok v names
  unfold Directory.recover
  rw [hv, hnames]
  simp only [bind, Except.bind]
  cases hc : checkListing v names with
  | error status =>
    refine ⟨fun _ => .inl ?_, fun _ => ⟨status, rfl⟩⟩
    rw [hc] at hcheck
    by_contra hno
    push Not at hno
    obtain ⟨logs, h⟩ := hcheck.mpr hno
    nomatch h
  | ok logs =>
    have hpass := hcheck.mp ⟨logs, hc⟩
    simp only
    cases hr : replayLogs recoverLogFile logs ⟨v, VersionEdit.empty, 0⟩ with
    | error status => exact ⟨fun _ => .inr ⟨logs, status, rfl, hr⟩, fun _ => ⟨status, rfl⟩⟩
    | ok s =>
      constructor
      · rintro ⟨status, h⟩
        nomatch h
      · rintro (⟨number, hmem, hno⟩ | ⟨logs', status, hlogs, h⟩)
        · exact absurd hno (hpass number hmem)
        · rw [← Except.ok.inj hlogs, hr] at h
          nomatch h

/-- A database whose recovery fails does not open. -/
theorem Directory.openDb_error {status : Status} (h : dir.recover recoverLogFile opts = .error status) :
    dir.openDb recoverLogFile install opts = .error status := by
  unfold Directory.openDb
  rw [h]
  rfl

end

/-- **When a missing table is noticed**: it is in every directory where some table's
    number is no file's at all, or where a log cannot be replayed. A table whose number
    another file has is not missed. -/
theorem recover_refuses_missing_iff (recoverLogFile : ℕ → Replayed → Except Status Replayed)
    (install : Replayed → Except Status Unit) (dir : Directory) (opts : OpenOptions) (v : VersionSet)
    (names : List FileName) (hv : dir.versions opts = .ok v) (hnames : dir.names = .ok names) :
    ((∃ number ∈ liveFiles v.files, NoTableFile names number) →
      (∃ status, dir.recover recoverLogFile opts = .error status) ∧
        ∃ status, dir.openDb recoverLogFile install opts = .error status) ↔
    ((∃ number ∈ liveFiles v.files, NoTableFile names number) →
      (∃ number ∈ liveFiles v.files, NoFile names number) ∨
        ∃ logs status, checkListing v names = .ok logs ∧
          replayLogs recoverLogFile logs ⟨v, VersionEdit.empty, 0⟩ = .error status) := by
  refine imp_congr_right fun _ => ?_
  rw [← Directory.recover_eq hv hnames]
  constructor
  · exact fun h => h.1
  · intro h
    obtain ⟨status, hstatus⟩ := h
    exact ⟨⟨status, hstatus⟩, status, Directory.openDb_error hstatus⟩

/-- A directory whose manifest names the table 5, with an old log of that number. -/
def numberTaken : Directory where
  dbname := "db"
  createDirectory := .ok ()
  acquireLock := .ok ()
  currentExists := true
  namesBefore := .ok []
  newDb := .ok ()
  manifest := .ok (4, [VersionEdit.encodeTo { VersionEdit.empty with
    logNumber := some 7
    nextFileNumber := some 8
    lastSequence := some 1
    newFiles := [(0, ⟨5, 100, ⟨[97], 257⟩, ⟨[97], 257⟩⟩)] }])
  names := .ok [currentFileName, lockFileName, descriptorFileName 4, logFileName 5, logFileName 7]

/-- An outcome that passes a test is not an error. -/
theorem exists_ok_of_test {ε α : Type} {x : Except ε α} (test : α → Bool)
    (h : (match x with | .ok a => test a | .error _ => false) = true) :
    ∃ a, x = .ok a ∧ test a = true := by
  cases x with
  | error => exact absurd h Bool.false_ne_true
  | ok a => exact ⟨a, rfl, h⟩

/-- The log 5 is older than the manifest's log number, so it is not replayed; its name
    stands for the table's, and the database opens without the table. -/
theorem recover_accepts_missing :
    (∃ v, numberTaken.versions ⟨false, false⟩ = .ok v ∧ 5 ∈ liveFiles v.files) ∧
    (∃ names, numberTaken.names = .ok names ∧ NoTableFile names 5) ∧
    (∃ s, numberTaken.recover (fun _ s => .ok s) ⟨false, false⟩ = .ok s) ∧
    ∃ u, numberTaken.openDb (fun _ s => .ok s) (fun _ => .ok ()) ⟨false, false⟩ = .ok u := by
  refine ⟨?_, ⟨_, rfl, by decide +kernel⟩, ?_, ?_⟩
  · obtain ⟨v, hv, hlive⟩ := exists_ok_of_test (x := numberTaken.versions ⟨false, false⟩)
      (fun v => decide (5 ∈ liveFiles v.files)) (by decide +kernel)
    exact ⟨v, hv, of_decide_eq_true hlive⟩
  · obtain ⟨s, hs, -⟩ := exists_ok_of_test
      (x := numberTaken.recover (fun _ s => .ok s) ⟨false, false⟩) (fun _ => true)
      (by decide +kernel)
    exact ⟨s, hs⟩
  · obtain ⟨u, hu, -⟩ := exists_ok_of_test
      (x := numberTaken.openDb (fun _ s => .ok s) (fun _ => .ok ()) ⟨false, false⟩)
      (fun _ => true) (by decide +kernel)
    exact ⟨u, hu⟩

/-- Without that log the table is missed. -/
def tableMissing : Directory :=
  { numberTaken with names := .ok [currentFileName, lockFileName, descriptorFileName 4, logFileName 7] }

theorem recover_refuses_tableMissing :
    ∃ status, tableMissing.recover (fun _ s => .ok s) ⟨false, false⟩ = .error status := by
  obtain ⟨v, hv, hlive⟩ := exists_ok_of_test (x := tableMissing.versions ⟨false, false⟩)
    (fun v => decide (5 ∈ liveFiles v.files)) (by decide +kernel)
  have hlive := of_decide_eq_true hlive
  have hnone : NoFile [currentFileName, lockFileName, descriptorFileName 4, logFileName 7] 5 := by
    decide +kernel
  exact ((recover_refuses_missing_iff (fun _ s => .ok s) (fun _ => .ok ()) tableMissing ⟨false, false⟩ v
    _ hv rfl).mpr (fun _ => .inl ⟨5, hlive, hnone⟩) ⟨5, hlive, fun name hname => hnone name hname _⟩).1

end Ambar
