import Ambar.Engine.Cases
import Ambar.Version.Manifest

/-!
# The manifest and the numbers

What holds between the manifest, the version in memory and the background thread,
whatever the tables hold. While no edit is in flight and no error has been seen the
manifest names the version in memory; an edit in flight takes both to the version it
was built from; after a failed install the manifest may be one edit ahead, and the
background thread stops. The numbers of the tables under construction are in use
nowhere else, and below the next number.

* `BooksOk`: the invariant.
* `ProcessOk`: this together with the agreement of logs and memtables.
* `ProcessOk.step`: every step of a process keeps both.
-/

namespace Ambar

/-! ## The invariant -/

/-- The edits name the version `files` up to the log `log`, and record a last sequence
    that bounds the records below it. -/
def Disk.Names (d : Disk) (edits : List VersionEdit) (files : Levels) (log : ℕ) : Prop :=
  ∃ next seq, Reads edits files log next seq ∧ (∀ e ∈ below d.records log, e.sequence ≤ seq) ∧
    seq < kMaxSequenceNumber

/-- The manifest names the version in memory. -/
def Synced (d : Disk) (p : Process) : Prop :=
  d.Names d.manifest p.versions.files p.versions.logNumber

/-- A call of `log_and_apply` in progress, whose edit moves the log number to `log`. -/
structure LoggingOk (d : Disk) (p : Process) (l : Logging) (log : ℕ) : Prop where
  logNumber : l.edit.logNumber = some log
  prevLogNumber : l.edit.prevLogNumber = some 0
  before : l.appended = false → Synced d p ∧ d.Names (d.manifest ++ [l.edit]) l.files log
  after : l.appended = true → d.Names d.manifest l.files log
  taken : ∀ q ∈ l.edit.newFiles, p.Taken q.2.number

/-- What the manifest says at each point of the background thread. -/
def JobOk (d : Disk) (p : Process) : Job → Prop
  | .idle => p.backgroundError = true ∨ p.shuttingDown = true ∨ Synced d p
  | .building _ _ => p.imm.isSome = true ∧ Synced d p
  | .flushing l _ => p.imm.isSome = true ∧ LoggingOk d p l p.logfileNumber
  | .moving l => LoggingOk d p l p.versions.logNumber
  | .working _ => Synced d p
  | .installing l _ => LoggingOk d p l p.versions.logNumber

/-- The numbers of a compaction's outputs. -/
def Work.numbers (w : Work) : List ℕ := w.state.all.map (·.number)

/-- The numbers of tables that no record of the manifest names yet. -/
def Job.reserved : Job → List ℕ
  | .idle => []
  | .building number resume => number :: resume.elim [] Work.numbers
  | .flushing l resume =>
    (if l.appended then [] else l.edit.newFiles.map fun q => q.2.number) ++
      resume.elim [] Work.numbers
  | .moving _ => []
  | .working w => w.numbers
  | .installing l w => if l.appended then [] else w.numbers

/-- The numbers of the tables that edits have added. -/
def namedNumbers (edits : List VersionEdit) : List ℕ := (allPairs edits).map (·.2)

theorem mem_namedNumbers_append {edits : List VersionEdit} {edit : VersionEdit} {n : ℕ} :
    n ∈ namedNumbers (edits ++ [edit]) ↔
      n ∈ namedNumbers edits ∨ ∃ q ∈ edit.newFiles, q.2.number = n := by
  simp [namedNumbers, allPairs_append, VersionEdit.addedPairs]

/-- The manifest, the version and the background thread agree. -/
structure BooksOk (d : Disk) (p : Process) : Prop where
  names : ∃ files log, d.Names d.manifest files log ∧ p.versions.logNumber ≤ log ∧
    log ≤ p.logfileNumber
  job : JobOk d p p.job
  named : ∀ n ∈ namedNumbers d.manifest, p.Taken n
  reserved : ∀ n ∈ p.job.reserved, p.Taken n ∧ n ∉ namedNumbers d.manifest
  nodup : p.job.reserved.Nodup
  seeks : p.versions.SeeksOk

/-- What holds of a process and its database, whatever the tables hold. -/
structure ProcessOk (d : Disk) (p : Process) : Prop where
  logs : LogsOk d p
  books : BooksOk d p

variable {opts : Options} {d d' : Disk} {p p' : Process}

/-! ## What stays -/

theorem Disk.Names.mono {edits : List VersionEdit} {files : Levels} {log : ℕ}
    (h : d.Names edits files log)
    (hrecords : ∀ e ∈ below d'.records log, e ∈ below d.records log) :
    d'.Names edits files log := by
  obtain ⟨next, seq, hr, hseq, hlt⟩ := h
  exact ⟨next, seq, hr, fun e he => hseq e (hrecords e he), hlt⟩

/-- The version in memory, the manifest and the records below it are the same. -/
structure SameBooks (d : Disk) (p : Process) (d' : Disk) (p' : Process) : Prop where
  manifest : d'.manifest = d.manifest
  records : ∀ log ≤ p.logfileNumber, ∀ e ∈ below d'.records log, e ∈ below d.records log
  files : p'.versions.files = p.versions.files
  logNumber : p'.versions.logNumber = p.versions.logNumber
  taken : ∀ n, p.Taken n → p'.Taken n
  backgroundError : p.backgroundError = true → p'.backgroundError = true
  shuttingDown : p.shuttingDown = true → p'.shuttingDown = true
  rotated : p'.logfileNumber = p.logfileNumber ∧ p'.imm = p.imm ∨
    p.logfileNumber < p'.logfileNumber ∧ p.imm = none

namespace SameBooks

variable (h : SameBooks d p d' p') (hle : p.versions.logNumber ≤ p.logfileNumber)

include h hle

theorem synced (hs : Synced d p) : Synced d' p' := by
  unfold Synced
  rw [h.manifest, h.files, h.logNumber]
  exact hs.mono (h.records _ hle)

theorem loggingOk {l : Logging} {log : ℕ} (hlog : log ≤ p.logfileNumber)
    (hl : LoggingOk d p l log) : LoggingOk d' p' l log where
  logNumber := hl.logNumber
  prevLogNumber := hl.prevLogNumber
  before := fun happ => by
    obtain ⟨hs, hn⟩ := hl.before happ
    refine ⟨h.synced hle hs, ?_⟩
    rw [h.manifest]
    exact hn.mono (h.records log hlog)
  after := fun happ => by
    rw [h.manifest]
    exact (hl.after happ).mono (h.records log hlog)
  taken := fun q hq => h.taken _ (hl.taken q hq)

theorem jobOk {job : Job} (hj : JobOk d p job) : JobOk d' p' job := by
  cases job with
  | idle =>
    rcases hj with herr | hshut | hs
    · exact Or.inl (h.backgroundError herr)
    · exact Or.inr (Or.inl (h.shuttingDown hshut))
    · exact Or.inr (Or.inr (h.synced hle hs))
  | building number resume =>
    rcases h.rotated with ⟨-, himm⟩ | ⟨-, himm⟩
    · exact ⟨himm ▸ hj.1, h.synced hle hj.2⟩
    · simp [JobOk, himm] at hj
  | flushing l resume =>
    rcases h.rotated with ⟨hlog, himm⟩ | ⟨-, himm⟩
    · refine ⟨himm ▸ hj.1, ?_⟩
      rw [hlog]
      exact h.loggingOk hle le_rfl hj.2
    · simp [JobOk, himm] at hj
  | moving l =>
    show LoggingOk d' p' l p'.versions.logNumber
    rw [h.logNumber]
    exact h.loggingOk hle hle hj
  | working w => exact h.synced hle hj
  | installing l w =>
    show LoggingOk d' p' l p'.versions.logNumber
    rw [h.logNumber]
    exact h.loggingOk hle hle hj

end SameBooks

/-- A step that leaves the books and may change the job. -/
theorem BooksOk.withJob (h : BooksOk d p) (hsame : SameBooks d p d' p')
    (hjob : JobOk d' p' p'.job)
    (hreserved : ∀ n ∈ p'.job.reserved, p'.Taken n ∧ n ∉ namedNumbers d.manifest)
    (hnodup : p'.job.reserved.Nodup) (hseeks : p'.versions.SeeksOk) : BooksOk d' p' where
  names := by
    obtain ⟨files, log, hn, hL, hF⟩ := h.names
    refine ⟨files, log, ?_, hsame.logNumber ▸ hL, hF.trans ?_⟩
    · rw [hsame.manifest]
      exact hn.mono (hsame.records log hF)
    · rcases hsame.rotated with ⟨hlog, -⟩ | ⟨hlog, -⟩ <;> omega
  job := hjob
  named := by
    rw [hsame.manifest]
    exact fun n hn => hsame.taken n (h.named n hn)
  reserved := hsame.manifest ▸ hreserved
  nodup := hnodup
  seeks := hseeks

theorem Quiet.sameBooks (h : Quiet d p d' p') : SameBooks d p d' p' where
  manifest := h.manifest
  records := fun log hlog e he => by
    rcases h.records with heq | ⟨r, heq⟩
    · rwa [heq] at he
    · rwa [heq, below_append hlog] at he
  files := h.files
  logNumber := h.logNumber
  taken := h.taken
  backgroundError := h.backgroundError
  shuttingDown := h.shuttingDown
  rotated := h.rotated.imp id fun hr => ⟨hr.1, hr.2.1⟩

/-- The writer and the readers leave the books alone. -/
theorem BooksOk.quiet (h : BooksOk d p) (hlogs : LogsOk d p) (hq : Quiet d p d' p') :
    BooksOk d' p' := by
  refine h.withJob hq.sameBooks ?_ ?_ ?_ (hq.seeks h.seeks)
  · rw [hq.job]
    exact hq.sameBooks.jobOk hlogs.log_le h.job
  · rw [hq.job]
    exact fun n hn => ⟨hq.taken n (h.reserved n hn).1, (h.reserved n hn).2⟩
  · rw [hq.job]
    exact h.nodup

/-! ## Cleanups -/

@[simp] theorem removeObsoleteFiles_records (d : Disk) (p : Process) (spared : Spared) :
    (removeObsoleteFiles d p spared).records = d.records := by
  unfold removeObsoleteFiles
  split_ifs <;> rfl

@[simp] theorem removeObsoleteFiles_manifest (d : Disk) (p : Process) (spared : Spared) :
    (removeObsoleteFiles d p spared).manifest = d.manifest := by
  unfold removeObsoleteFiles
  split_ifs <;> rfl

@[simp] theorem removeObsoleteFiles_tables (d : Disk) (p : Process) (spared : Spared) :
    (removeObsoleteFiles d p spared).tables = d.tables := by
  unfold removeObsoleteFiles
  split_ifs <;> rfl

/-- The logs that a version is not installed up to stay. -/
theorem mem_removeObsoleteFiles_logFiles {spared : Spared} {n : ℕ} (hn : n ∈ d.logFiles)
    (hle : p.versions.logNumber ≤ n) : n ∈ (removeObsoleteFiles d p spared).logFiles := by
  unfold removeObsoleteFiles
  split_ifs
  · exact hn
  · exact Finset.mem_filter.mpr ⟨hn, Or.inl hle⟩

/-! ## Edits in flight -/

/-- An edit that extends the manifest enters `log_and_apply`. -/
theorem ProcessOk.beginLog (h : ProcessOk d p) (hs : Synced d p) {edit : VersionEdit} {log : ℕ}
    (hlog : edit.logNumber.getD p.versions.logNumber = log)
    (hprev : edit.prevLogNumber.getD p.versions.prevLogNumber = 0) (hF : log ≤ p.logfileNumber)
    (he : edit.Extends d.manifest p.versions.files)
    (hnew : ∀ q ∈ edit.newFiles, p.Taken q.2.number) (hrecords : d'.records = d.records)
    (hmanifest : d'.manifest = d.manifest)
    (hversions : p'.versions = (p.versions.beginLog edit).2) (hwriter : p'.writer = p.writer) :
    LoggingOk d' p' (p.versions.beginLog edit).1 log where
  logNumber := congrArg some hlog
  prevLogNumber := congrArg some hprev
  before := fun _ => by
    have hsynced : Synced d' p' := by
      unfold Synced
      rw [hmanifest, hversions]
      exact hs.mono (hrecords ▸ fun e he => he)
    refine ⟨hsynced, p.versions.nextFileNumber, p.versions.lastSequence, ?_, ?_, h.logs.seq_lt⟩
    · obtain ⟨next, seq, hr, -, -⟩ := hs
      have hc := p.versions.completeEdit_complete hlog hprev
      have hlt := h.logs.log_lt
      rw [hmanifest]
      refine hr.append ⟨he.nodup, he.new⟩ hc (by omega) (fun q hq => ?_) fun q hq => (hnew q hq).1
      exact (h.books.named q.2 (List.mem_map_of_mem hq)).1
    · -- the records below the current log are published
      rw [hrecords]
      rintro e ⟨r, hr, hlt, he⟩
      rcases h.logs.seq r hr with hle | ⟨hcur, -⟩
      · exact hle e he
      · omega
  after := fun happ => by cases happ
  taken := fun q hq => by
    obtain ⟨h1, h2⟩ := hnew q hq
    unfold Process.Taken
    rw [hversions, hwriter]
    exact ⟨h1, h2⟩

/-- The record of the edit is in the manifest. -/
theorem LoggingOk.append {l : Logging} {log : ℕ} (h : LoggingOk d p l log)
    (happ : l.appended = false) (hrecords : d'.records = d.records)
    (hmanifest : d'.manifest = d.manifest ++ [l.edit]) (htaken : ∀ n, p.Taken n → p'.Taken n) :
    LoggingOk d' p' { l with appended := true } log where
  logNumber := h.logNumber
  prevLogNumber := h.prevLogNumber
  before := fun happ' => by cases happ'
  after := fun _ => by
    rw [hmanifest]
    exact (h.before happ).2.mono (hrecords ▸ fun e he => he)
  taken := fun q hq => htaken _ (h.taken q hq)

/-- The manifest after a call of `log_and_apply` that failed: as before, or with the
    record. -/
theorem LoggingOk.failed {l : Logging} {log : ℕ} (h : LoggingOk d p l log) (whole : Bool) :
    (∃ files log', (Process.failedManifest d l whole).Names
      (Process.failedManifest d l whole).manifest files log' ∧
      (log' = p.versions.logNumber ∨ log' = log)) ∧
    ∀ n ∈ namedNumbers (Process.failedManifest d l whole).manifest,
      n ∈ namedNumbers d.manifest ∨ p.Taken n := by
  unfold Process.failedManifest
  by_cases hw : l.appended = false ∧ whole = true
  · rw [if_pos hw]
    refine ⟨⟨l.files, log, (h.before hw.1).2, Or.inr rfl⟩, fun n hn => ?_⟩
    rcases mem_namedNumbers_append.mp hn with hn | ⟨q, hq, rfl⟩
    · exact Or.inl hn
    · exact Or.inr (h.taken q hq)
  · rw [if_neg hw]
    refine ⟨?_, fun n hn => Or.inl hn⟩
    cases happ : l.appended with
    | false => exact ⟨_, _, (h.before happ).1, Or.inl rfl⟩
    | true => exact ⟨l.files, log, h.after happ, Or.inr rfl⟩

@[simp] theorem failedManifest_records (d : Disk) (l : Logging) (whole : Bool) :
    (Process.failedManifest d l whole).records = d.records := by
  unfold Process.failedManifest
  split_ifs <;> rfl

@[simp] theorem failedManifest_tables (d : Disk) (l : Logging) (whole : Bool) :
    (Process.failedManifest d l whole).tables = d.tables := by
  unfold Process.failedManifest
  split_ifs <;> rfl

@[simp] theorem failedManifest_logFiles (d : Disk) (l : Logging) (whole : Bool) :
    (Process.failedManifest d l whole).logFiles = d.logFiles := by
  unfold Process.failedManifest
  split_ifs <;> rfl

/-! ## The edits of the engine -/

/-- The edit of a flush adds at most the table of its number. -/
theorem flushEdit_newFiles {number : ℕ} {imm : MemTable} {q : ℕ × FileMetaData}
    (hq : q ∈ (p.flushEdit opts number imm).newFiles) :
    memTableFile opts number imm = some q.2 ∧ q.2.number = number ∧
      q.1 = pickLevelForMemtableOutput opts.maxFileSize p.versions.files q.2.smallest.userKey
        q.2.largest.userKey := by
  unfold Process.flushEdit at hq
  cases hm : memTableFile opts number imm with
  | none =>
    rw [hm] at hq
    exact absurd hq (by simp [VersionEdit.empty])
  | some f =>
    rw [hm] at hq
    have hq' : q ∈ [(pickLevelForMemtableOutput opts.maxFileSize p.versions.files
        f.smallest.userKey f.largest.userKey, f)] := hq
    rw [List.mem_singleton.mp hq']
    refine ⟨rfl, ?_, rfl⟩
    unfold memTableFile at hm
    split at hm
    · cases hm
      rfl
    · cases hm

theorem flushEdit_numbers (number : ℕ) (imm : MemTable) :
    ((p.flushEdit opts number imm).newFiles.map fun q => q.2.number).Sublist [number] := by
  cases hm : memTableFile opts number imm with
  | none => simp [Process.flushEdit, hm, VersionEdit.empty]
  | some f =>
    have hf : f.number = number := by
      unfold memTableFile at hm
      split at hm
      · cases hm
        rfl
      · cases hm
    simp [Process.flushEdit, hm, VersionEdit.empty, VersionEdit.addFile, hf]

theorem flushEdit_extends {number : ℕ} (hn : number ∉ namedNumbers d.manifest) (imm : MemTable) :
    (p.flushEdit opts number imm).Extends d.manifest p.versions.files where
  nodup := (List.nodup_singleton number).sublist (flushEdit_numbers number imm)
  new := fun q hq => Or.inl fun r hr heq => by
    rw [(flushEdit_newFiles hq).2.1] at heq
    exact hn (heq ▸ List.mem_map_of_mem hr)

theorem moveEdit_extends {c : Compaction} {f : FileMetaData}
    (hf : f ∈ p.versions.files c.level) : (c.moveEdit f).Extends d.manifest p.versions.files where
  nodup := List.nodup_singleton _
  new := fun q hq => by
    obtain rfl : q = (c.level + 1, f) := List.mem_singleton.mp hq
    exact Or.inr ⟨c.level, rfl, hf, VersionEdit.mem_removeFile.mpr (Or.inl rfl)⟩

theorem installEdit_extends {c : Compaction} {outputs : List Output}
    (hnodup : (outputs.map (·.number)).Nodup)
    (hfresh : ∀ o ∈ outputs, o.number ∉ namedNumbers d.manifest) :
    (c.installEdit opts outputs).Extends d.manifest p.versions.files where
  nodup := by
    rw [(c.installEdit_spec opts outputs).1, List.map_map]
    exact hnodup
  new := fun q hq => by
    rw [(c.installEdit_spec opts outputs).1] at hq
    obtain ⟨o, ho, rfl⟩ := List.mem_map.mp hq
    exact Or.inl fun r hr heq => hfresh o ho (List.mem_map.mpr ⟨r, hr, heq⟩)

theorem installEdit_logNumbers (opts : Options) (c : Compaction) (outputs : List Output) :
    (c.installEdit opts outputs).logNumber = none ∧
      (c.installEdit opts outputs).prevLogNumber = none := by
  have hadd : ∀ (os : List Output) (e : VersionEdit),
      (os.foldl (fun e o => e.addFile (c.level + 1) (o.file opts)) e).logNumber = e.logNumber ∧
      (os.foldl (fun e o => e.addFile (c.level + 1) (o.file opts)) e).prevLogNumber =
        e.prevLogNumber := by
    intro os
    induction os with
    | nil => exact fun e => ⟨rfl, rfl⟩
    | cons o os ih => exact fun e => ih _
  have hremove : ∀ (level : ℕ) (fs : List FileMetaData) (e : VersionEdit),
      (fs.foldl (fun e f => e.removeFile level f.number) e).logNumber = e.logNumber ∧
      (fs.foldl (fun e f => e.removeFile level f.number) e).prevLogNumber = e.prevLogNumber := by
    intro level fs
    induction fs with
    | nil => exact fun e => ⟨rfl, rfl⟩
    | cons f fs ih => exact fun e => ih _
  unfold Compaction.installEdit
  dsimp only
  rw [(hadd _ _).1, (hadd _ _).2, (hremove _ _ _).1, (hremove _ _ _).2, (hremove _ _ _).1,
    (hremove _ _ _).2]
  exact ⟨rfl, rfl⟩

/-! ## The steps of the background thread -/

/-- The books are the same if neither the records, the manifest nor what they speak of
    in the process changes. -/
theorem SameBooks.of_eq (hmanifest : d'.manifest = d.manifest) (hrecords : d'.records = d.records)
    (hfiles : p'.versions.files = p.versions.files)
    (hL : p'.versions.logNumber = p.versions.logNumber)
    (hnext : p.versions.nextFileNumber ≤ p'.versions.nextFileNumber)
    (hwriter : p'.writer = p.writer) (herr : p.backgroundError = true → p'.backgroundError = true)
    (hshut : p'.shuttingDown = p.shuttingDown) (hlog : p'.logfileNumber = p.logfileNumber)
    (himm : p'.imm = p.imm) : SameBooks d p d' p' where
  manifest := hmanifest
  records := fun _ _ _ he => hrecords ▸ he
  files := hfiles
  logNumber := hL
  taken := fun _ hn => ⟨hn.1.trans_le hnext, hwriter ▸ hn.2⟩
  backgroundError := herr
  shuttingDown := fun h => hshut.trans h
  rotated := Or.inl ⟨hlog, himm⟩

/-- The next number is free, and no log is about to take over under it. -/
theorem ProcessOk.next_free (h : ProcessOk d p) :
    (∀ n, p.writer ≠ .rotating n ∨ n < p.versions.nextFileNumber) ∧
      p.versions.nextFileNumber ∉ namedNumbers d.manifest ∧
      p.versions.nextFileNumber ∉ p.job.reserved := by
  refine ⟨fun n => ?_, fun hn => ?_, fun hn => ?_⟩
  · by_cases hw : p.writer = .rotating n
    · exact Or.inr (h.logs.rotating n hw).2.1
    · exact Or.inl hw
  · exact absurd (h.books.named _ hn).1 (lt_irrefl _)
  · exact absurd (h.books.reserved _ hn).1.1 (lt_irrefl _)

/-- A number just taken. -/
theorem ProcessOk.taken_next (h : ProcessOk d p)
    (hnext : p.versions.nextFileNumber < p'.versions.nextFileNumber)
    (hwriter : p'.writer = p.writer) : p'.Taken p.versions.nextFileNumber := by
  refine ⟨hnext, fun hw => ?_⟩
  rw [hwriter] at hw
  exact absurd (h.logs.rotating _ hw).2.1 (lt_irrefl _)

/-- A flush takes a number. -/
theorem ProcessOk.beginFlush (h : ProcessOk d p) (hs : Synced d p) {imm : MemTable}
    (himm : p.imm = some imm) {resume : Option Work}
    (hresume : p.job.reserved = resume.elim [] Work.numbers) : BooksOk d (p.beginFlush resume) := by
  have hsame : SameBooks d p d (p.beginFlush resume) :=
    .of_eq rfl rfl rfl rfl (Nat.le_succ _) rfl id rfl rfl rfl
  obtain ⟨-, hfree, hunreserved⟩ := h.next_free
  rw [hresume] at hunreserved
  refine h.books.withJob hsame ⟨?_, hsame.synced h.logs.log_le hs⟩ ?_ ?_ h.books.seeks
  · show p.imm.isSome = true
    rw [himm]
    rfl
  · intro n hn
    rcases List.mem_cons.mp hn with rfl | hn
    · exact ⟨h.taken_next (Nat.lt_succ_self _) rfl, hfree⟩
    · obtain ⟨h1, h2⟩ := h.books.reserved n (hresume ▸ hn)
      exact ⟨hsame.taken n h1, h2⟩
  · exact List.nodup_cons.mpr ⟨hunreserved, hresume ▸ h.books.nodup⟩

/-- A compaction starts with no output. -/
theorem ProcessOk.beginWork (h : ProcessOk d p) (hs : Synced d p) (c : Compaction) (manual : Bool) :
    BooksOk d ((p.setPointer c).beginWork d c manual) := by
  have hsame : SameBooks d p d ((p.setPointer c).beginWork d c manual) :=
    .of_eq rfl rfl rfl rfl le_rfl rfl id rfl rfl rfl
  exact h.books.withJob hsame (hsame.synced h.logs.log_le hs)
    (fun n hn => absurd hn (by simp [Process.beginWork, Job.reserved, Work.numbers,
      CompactionState.all, CompactionState.init])) List.nodup_nil h.books.seeks

theorem ProcessOk.move (h : ProcessOk d p) (hs : Synced d p) {c : Compaction} {f : FileMetaData}
    (hf : f ∈ p.versions.files c.level) :
    BooksOk d ((p.setPointer c).beginLog (c.moveEdit f) .moving) := by
  have hsame : SameBooks d p d (p.setPointer c) :=
    .of_eq rfl rfl rfl rfl le_rfl rfl id rfl rfl rfl
  have hsame' : SameBooks d p d ((p.setPointer c).beginLog (c.moveEdit f) .moving) :=
    .of_eq rfl rfl rfl rfl le_rfl rfl id rfl rfl rfl
  have hset : ProcessOk d (p.setPointer c) :=
    ⟨h.logs.frame rfl (fun n hn _ => hn) rfl rfl rfl rfl h.logs.snapshots rfl rfl rfl le_rfl id,
      h.books.withJob hsame (hsame.jobOk h.logs.log_le h.books.job)
        (fun n hn => ⟨hsame.taken n (h.books.reserved n hn).1, (h.books.reserved n hn).2⟩)
        h.books.nodup h.books.seeks⟩
  refine h.books.withJob hsame' ?_ (fun n hn => absurd hn List.not_mem_nil) List.nodup_nil
    h.books.seeks
  refine hset.beginLog (hsame.synced h.logs.log_le hs) rfl h.logs.prevLog h.logs.log_le
    (moveEdit_extends hf) (fun q hq => ?_) rfl rfl rfl rfl
  obtain rfl : q = (c.level + 1, f) := List.mem_singleton.mp hq
  -- the file's number is in the manifest
  obtain ⟨next, seq, hr, -, -⟩ := hs
  exact h.books.named f.number (List.mem_map.mpr ⟨_, hr.listed.mem_allPairs hf, rfl⟩)

theorem ProcessOk.built (h : ProcessOk d p) {number : ℕ} {resume : Option Work} {imm : MemTable}
    (hjob : p.job = .building number resume) (hrecords : d'.records = d.records)
    (hmanifest : d'.manifest = d.manifest) :
    BooksOk d' ({ p with pendingOutputs := p.pendingOutputs.erase number }.beginLog
      (p.flushEdit opts number imm) fun logging => .flushing logging resume) := by
  have hj := h.books.job
  have hres := h.books.reserved
  have hnd := h.books.nodup
  rw [hjob] at hj hres hnd
  obtain ⟨himm, hs⟩ := hj
  obtain ⟨htaken, hfree⟩ := hres number (by simp [Job.reserved])
  have hsame : SameBooks d p d' ({ p with pendingOutputs := p.pendingOutputs.erase number }.beginLog
      (p.flushEdit opts number imm) fun logging => .flushing logging resume) :=
    .of_eq hmanifest hrecords rfl rfl le_rfl rfl id rfl rfl rfl
  have hsub : ((p.flushEdit opts number imm).newFiles.map fun q => q.2.number).Sublist [number] :=
    flushEdit_numbers number imm
  refine h.books.withJob hsame ⟨himm, ?_⟩ ?_ ?_ h.books.seeks
  · refine h.beginLog hs rfl rfl le_rfl (flushEdit_extends hfree imm) (fun q hq => ?_) hrecords
      hmanifest rfl rfl
    rw [(flushEdit_newFiles hq).2.1]
    exact htaken
  · intro n hn
    have hn' : n ∈ number :: resume.elim [] Work.numbers := by
      rcases List.mem_append.mp hn with hn | hn
      · exact List.mem_cons.mpr (Or.inl (List.mem_singleton.mp (hsub.subset hn)))
      · exact List.mem_cons_of_mem _ hn
    exact ⟨hsame.taken n (hres n hn').1, (hres n hn').2⟩
  · exact hnd.sublist (List.Sublist.append hsub (List.Sublist.refl _))

/-- The background thread stops for good. -/
theorem ProcessOk.stopped (h : ProcessOk d p)
    (hnames : ∃ files log, d'.Names d'.manifest files log ∧ p.versions.logNumber ≤ log ∧
      log ≤ p.logfileNumber)
    (hnamed : ∀ n ∈ namedNumbers d'.manifest, p.Taken n)
    (hversions : p'.versions = p.versions ∨ p'.versions = p.versions.takeNumber)
    (hlog : p'.logfileNumber = p.logfileNumber) (hwriter : p'.writer = p.writer)
    (hflag : p'.backgroundError = true ∨ p'.shuttingDown = true) (hjob : p'.job = .idle) :
    BooksOk d' p' := by
  have hL : p'.versions.logNumber = p.versions.logNumber := by
    rcases hversions with hv | hv <;> rw [hv]
    rfl
  have hnext : p.versions.nextFileNumber ≤ p'.versions.nextFileNumber := by
    rcases hversions with hv | hv <;> rw [hv]
    exact Nat.le_succ _
  refine ⟨?_, ?_, fun n hn => ?_, ?_, ?_, ?_⟩
  · rw [hL, hlog]
    exact hnames
  · rw [hjob]
    exact hflag.imp id Or.inl
  · exact ⟨(hnamed n hn).1.trans_le hnext, hwriter ▸ (hnamed n hn).2⟩
  · rw [hjob]
    exact fun n hn => absurd hn List.not_mem_nil
  · rw [hjob]
    exact List.nodup_nil
  · rcases hversions with hv | hv
    · rw [hv]
      exact h.books.seeks
    · rw [hv]
      exact h.books.seeks

theorem ProcessOk.entry (h : ProcessOk d p) {work : Work} {e : Entry} {rest : List Entry}
    {next : CompactionState × Bool} (hjob : p.job = .working work)
    (hnext : compactEntry opts work.compaction work.smallestSnapshot p.versions.nextFileNumber
      work.state e = next)
    (hversions : p'.versions = if next.2 then p.versions.takeNumber else p.versions)
    (hwriter : p'.writer = p.writer) (herr : p'.backgroundError = p.backgroundError)
    (hshut : p'.shuttingDown = p.shuttingDown) (hlog : p'.logfileNumber = p.logfileNumber)
    (himm : p'.imm = p.imm)
    (hjob' : p'.job = .working { work with state := next.1, rest := rest })
    (hrecords : d'.records = d.records) (hmanifest : d'.manifest = d.manifest) : BooksOk d' p' := by
  have hj := h.books.job
  have hres := h.books.reserved
  have hnd := h.books.nodup
  obtain ⟨-, hfree, hunreserved⟩ := h.next_free
  rw [hjob] at hj hres hnd hunreserved
  have hnumbers : next.1.all.map (·.number) =
      work.numbers ++ if next.2 then [p.versions.nextFileNumber] else [] := by
    rw [← hnext]
    exact compactEntry_numbers opts work.compaction work.smallestSnapshot _ work.state e
  have hle : p.versions.nextFileNumber ≤ p'.versions.nextFileNumber := by
    rw [hversions]
    split_ifs
    · exact Nat.le_succ _
    · exact le_rfl
  have hsame : SameBooks d p d' p' := by
    refine .of_eq hmanifest hrecords ?_ ?_ hle hwriter (fun he => herr.trans he) hshut hlog himm
    · rw [hversions]
      split_ifs <;> rfl
    · rw [hversions]
      split_ifs <;> rfl
  have hreserved : p'.job.reserved = next.1.all.map (·.number) := by rw [hjob']; rfl
  refine h.books.withJob hsame ?_ ?_ ?_ ?_
  · rw [hjob']
    exact hsame.synced h.logs.log_le hj
  · rw [hreserved, hnumbers]
    intro n hn
    rcases List.mem_append.mp hn with hn | hn
    · exact ⟨hsame.taken n (hres n hn).1, (hres n hn).2⟩
    · by_cases htook : next.2 = true
      · rw [if_pos htook] at hn hversions
        rw [List.mem_singleton.mp hn]
        refine ⟨h.taken_next ?_ hwriter, hfree⟩
        rw [hversions]
        exact Nat.lt_succ_self _
      · rw [if_neg htook] at hn
        exact absurd hn List.not_mem_nil
  · rw [hreserved, hnumbers]
    split_ifs
    · refine List.nodup_append.mpr ⟨hnd, List.nodup_singleton _, fun a ha b hb heq => ?_⟩
      rw [List.mem_singleton.mp hb] at heq
      exact hunreserved (heq ▸ ha)
    · rw [List.append_nil]
      exact hnd
  · rw [hversions]
    split_ifs
    · exact h.books.seeks
    · exact h.books.seeks

theorem ProcessOk.finish (h : ProcessOk d p) {work : Work} (hjob : p.job = .working work) :
    BooksOk d (p.beginLog (work.compaction.installEdit opts work.state.finish.outputs)
      fun logging => .installing logging { work with state := work.state.finish }) := by
  have hs : Synced d p := by
    have := h.books.job
    rwa [hjob] at this
  have hres := h.books.reserved
  have hnd := h.books.nodup
  rw [hjob] at hres hnd
  have hall : work.state.finish.outputs.map (·.number) = work.numbers := rfl
  have hin : ∀ o ∈ work.state.finish.outputs, o.number ∈ work.numbers := fun o ho =>
    hall ▸ List.mem_map_of_mem ho
  have hsame : SameBooks d p d (p.beginLog (work.compaction.installEdit opts
      work.state.finish.outputs) fun logging => .installing logging
        { work with state := work.state.finish }) :=
    .of_eq rfl rfl rfl rfl le_rfl rfl id rfl rfl rfl
  have hnumbers : ({ work with state := work.state.finish } : Work).numbers = work.numbers := by
    simp [Work.numbers]
  have hextends : (work.compaction.installEdit opts work.state.finish.outputs).Extends d.manifest
      p.versions.files :=
    installEdit_extends (hall ▸ hnd) fun o ho => (hres _ (hin o ho)).2
  obtain ⟨hno, hnoprev⟩ := installEdit_logNumbers opts work.compaction work.state.finish.outputs
  refine h.books.withJob hsame ?_ ?_ ?_ h.books.seeks
  · refine h.beginLog hs ?_ ?_ h.logs.log_le hextends (fun q hq => ?_) rfl rfl rfl rfl
    · rw [hno]
      rfl
    · rw [hnoprev]
      exact h.logs.prevLog
    · rw [(work.compaction.installEdit_spec opts _).1] at hq
      obtain ⟨o, ho, rfl⟩ := List.mem_map.mp hq
      exact (hres _ (hin o ho)).1
  · intro n hn
    have hn' : n ∈ work.numbers := by
      rw [← hnumbers]
      exact hn
    exact ⟨hsame.taken n (hres n hn').1, (hres n hn').2⟩
  · show ({ work with state := work.state.finish } : Work).numbers.Nodup
    rw [hnumbers]
    exact hnd

/-- The record of an edit reaches the manifest. -/
theorem ProcessOk.append (h : ProcessOk d p) {l : Logging} {job : Logging → Job}
    (happ : l.appended = false) (hjob : p.job = job l)
    (hkind : (∃ resume, job = fun l => .flushing l resume) ∨ job = .moving ∨
      ∃ work, job = fun l => .installing l work) :
    BooksOk { d with manifest := d.manifest ++ [l.edit] }
      { p with job := job { l with appended := true } } := by
  have hj := h.books.job
  have hres := h.books.reserved
  have hnd := h.books.nodup
  rw [hjob] at hj hres hnd
  have hL := h.logs.log_le
  -- what is the same for the three kinds of edit
  have key : ∀ log, log = p.logfileNumber ∨ log = p.versions.logNumber → LoggingOk d p l log →
      JobOk { d with manifest := d.manifest ++ [l.edit] }
        { p with job := job { l with appended := true } } (job { l with appended := true }) →
      (∀ n ∈ (job { l with appended := true }).reserved, n ∈ (job l).reserved ∧
        ∀ q ∈ l.edit.newFiles, q.2.number ≠ n) →
      (job { l with appended := true }).reserved.Sublist (job l).reserved →
      BooksOk { d with manifest := d.manifest ++ [l.edit] }
        { p with job := job { l with appended := true } } := by
    intro log hlog hl hok hfresh hsub
    refine ⟨⟨l.files, log, (hl.before happ).2, ?_, ?_⟩, hok, fun n hn => ?_, fun n hn => ?_,
      hnd.sublist hsub, h.books.seeks⟩
    · show p.versions.logNumber ≤ log
      omega
    · show log ≤ p.logfileNumber
      omega
    · rcases mem_namedNumbers_append.mp hn with hn | ⟨q, hq, rfl⟩
      · exact h.books.named n hn
      · exact hl.taken q hq
    · obtain ⟨h1, h2⟩ := hfresh n hn
      refine ⟨(hres n h1).1, fun hm => ?_⟩
      rcases mem_namedNumbers_append.mp hm with hm | ⟨q, hq, heq⟩
      · exact (hres n h1).2 hm
      · exact h2 q hq heq
  rcases hkind with ⟨resume, rfl⟩ | rfl | ⟨work, rfl⟩
  · refine key _ (Or.inl rfl) hj.2 ⟨hj.1, hj.2.append happ rfl rfl fun n hn => hn⟩ ?_ ?_
    · intro n hn
      have hn' : n ∈ resume.elim [] Work.numbers := by simpa [Job.reserved] using hn
      refine ⟨List.mem_append_right _ hn', fun q hq heq => ?_⟩
      simp only [Job.reserved, happ, Bool.false_eq_true, if_false] at hnd
      exact (List.nodup_append.mp hnd).2.2 _ (List.mem_map_of_mem hq) _ hn' heq
    · simp [Job.reserved]
  · exact key _ (Or.inr rfl) hj (LoggingOk.append hj happ rfl rfl fun n hn => hn)
      (fun n hn => absurd hn List.not_mem_nil) (List.Sublist.refl _)
  · refine key _ (Or.inr rfl) hj (LoggingOk.append hj happ rfl rfl fun n hn => hn) ?_ ?_
    · simp [Job.reserved]
    · simp [Job.reserved]

/-- The version of an edit is installed. -/
theorem ProcessOk.installed (h : ProcessOk d p) {l : Logging} {log : ℕ}
    (hl : LoggingOk d p l log) (happ : l.appended = true)
    (hlog : log = p.logfileNumber ∨ log = p.versions.logNumber)
    (hrecords : d'.records = d.records) (hmanifest : d'.manifest = d.manifest)
    (hversions : p'.versions = p.versions.install l.edit l.files) (hwriter : p'.writer = p.writer)
    (hlogfile : p'.logfileNumber = p.logfileNumber)
    (hjob : (p'.job = .idle) ∨ ∃ work, p'.job = .working work ∧
      (∀ n ∈ work.numbers, n ∈ p.job.reserved) ∧ work.numbers.Nodup) : BooksOk d' p' := by
  have hle := h.logs.log_le
  have hL : p'.versions.logNumber = log := by
    rw [hversions]
    show l.edit.logNumber.getD _ = log
    rw [hl.logNumber]
    rfl
  have hfiles : p'.versions.files = l.files := by rw [hversions]; rfl
  have hn : d'.Names d'.manifest l.files log := by
    rw [hmanifest]
    exact (hl.after happ).mono (hrecords ▸ fun e he => he)
  have hs : Synced d' p' := by
    unfold Synced
    rw [hfiles, hL]
    exact hn
  have htaken : ∀ n, p.Taken n → p'.Taken n := by
    intro n hn
    unfold Process.Taken
    rw [hversions, hwriter]
    exact hn
  have hseeks : p'.versions.SeeksOk := by
    intro level f hf
    rw [hversions] at hf
    cases hf
  refine ⟨⟨l.files, log, hn, hL.le, ?_⟩, ?_, fun n hn => htaken n (h.books.named n (hmanifest ▸ hn)),
    ?_, ?_, hseeks⟩
  · rw [hlogfile]
    omega
  · rcases hjob with hjob | ⟨work, hjob, -, -⟩
    · rw [hjob]
      exact Or.inr (Or.inr hs)
    · rw [hjob]
      exact hs
  · rcases hjob with hjob | ⟨work, hjob, hsub, -⟩
    · rw [hjob]
      exact fun n hn => absurd hn List.not_mem_nil
    · rw [hjob]
      intro n hn
      obtain ⟨h1, h2⟩ := h.books.reserved n (hsub n hn)
      exact ⟨htaken n h1, hmanifest ▸ h2⟩
  · rcases hjob with hjob | ⟨work, hjob, -, hnd⟩
    · rw [hjob]
      exact List.nodup_nil
    · rw [hjob]
      exact hnd

/-- The names of the manifest after a failure. -/
theorem ProcessOk.failed (h : ProcessOk d p) {l : Logging} {log : ℕ} (hl : LoggingOk d p l log)
    (hlog : log = p.logfileNumber ∨ log = p.versions.logNumber) (whole : Bool) :
    (∃ files log', (Process.failedManifest d l whole).Names
      (Process.failedManifest d l whole).manifest files log' ∧ p.versions.logNumber ≤ log' ∧
      log' ≤ p.logfileNumber) ∧
    ∀ n ∈ namedNumbers (Process.failedManifest d l whole).manifest, p.Taken n := by
  have hle := h.logs.log_le
  obtain ⟨⟨files, log', hn, hlog'⟩, hnamed⟩ := hl.failed whole
  refine ⟨⟨files, log', hn, by omega, by omega⟩, fun n hn => ?_⟩
  exact (hnamed n hn).elim (h.books.named n) id

theorem flushFails_eq (p : Process) (resume : Option Work) :
    ∃ pending, p.flushFails resume =
      { p with pendingOutputs := pending, backgroundError := true, job := .idle } := by
  cases resume with
  | none => exact ⟨p.pendingOutputs, rfl⟩
  | some work => exact ⟨_, rfl⟩

/-- A failed flush. -/
theorem ProcessOk.flushFails (h : ProcessOk d p) {pending : Finset ℕ} {resume : Option Work}
    (hrecords : d'.records = d.records) (hlogFiles : d'.logFiles = d.logFiles)
    (hnames : ∃ files log, d'.Names d'.manifest files log ∧ p.versions.logNumber ≤ log ∧
      log ≤ p.logfileNumber)
    (hnamed : ∀ n ∈ namedNumbers d'.manifest, p.Taken n) :
    ProcessOk d' ({ p with pendingOutputs := pending }.flushFails resume) := by
  obtain ⟨pending', heq⟩ := flushFails_eq { p with pendingOutputs := pending } resume
  rw [heq]
  refine ⟨h.logs.frame hrecords (fun n hn _ => hlogFiles ▸ hn) rfl rfl rfl rfl h.logs.snapshots rfl
    rfl rfl le_rfl fun _ => rfl, ?_⟩
  exact h.stopped hnames hnamed (Or.inl rfl) rfl rfl (Or.inl rfl) rfl

/-- A compaction or move that fails, and the cleanup after it. -/
theorem ProcessOk.jobFailed (h : ProcessOk d p) {q : Process} {spared : Spared}
    (hrecords : d'.records = d.records) (hlogFiles : d'.logFiles = d.logFiles)
    (hnames : ∃ files log, d'.Names d'.manifest files log ∧ p.versions.logNumber ≤ log ∧
      log ≤ p.logfileNumber)
    (hnamed : ∀ n ∈ namedNumbers d'.manifest, p.Taken n)
    (hmem : q.mem = p.mem) (himm : q.imm = p.imm) (hlog : q.logfileNumber = p.logfileNumber)
    (hwriter : q.writer = p.writer) (hsnap : q.snapshots = p.snapshots)
    (hversions : q.versions = p.versions ∨ q.versions = p.versions.takeNumber)
    (herr : q.backgroundError = (p.backgroundError || !p.shuttingDown))
    (hshut : q.shuttingDown = p.shuttingDown) (hjob : q.job = .idle) :
    ProcessOk (removeObsoleteFiles d' q spared) q := by
  have hv : q.versions.logNumber = p.versions.logNumber ∧
      q.versions.prevLogNumber = p.versions.prevLogNumber ∧
      q.versions.lastSequence = p.versions.lastSequence ∧
      p.versions.nextFileNumber ≤ q.versions.nextFileNumber := by
    rcases hversions with hv | hv
    · rw [hv]
      exact ⟨rfl, rfl, rfl, le_rfl⟩
    · rw [hv]
      exact ⟨rfl, rfl, rfl, Nat.le_succ _⟩
  refine ⟨?_, ?_⟩
  · refine h.logs.frame (by simp [hrecords]) (fun n hn hle => ?_) hmem himm hlog hwriter ?_ hv.1 hv.2.1
      hv.2.2.1 hv.2.2.2 (fun he => by simp [herr, he])
    · exact mem_removeObsoleteFiles_logFiles (hlogFiles ▸ hn) (hv.1 ▸ hle)
    · rw [hsnap, hv.2.2.1]
      exact h.logs.snapshots
  · refine h.stopped ?_ ?_ hversions hlog hwriter ?_ hjob
    · obtain ⟨files, log, hn, hle⟩ := hnames
      refine ⟨files, log, ?_, hle⟩
      rw [removeObsoleteFiles_manifest]
      exact hn.mono (by simp)
    · rw [removeObsoleteFiles_manifest]
      exact hnamed
    · rw [herr, hshut]
      cases p.shuttingDown with
      | true => exact Or.inr rfl
      | false => exact Or.inl (by simp)

/-- **Every step of the background thread keeps the books.** -/
theorem ProcessOk.jobStep (h : ProcessOk d p) {a : Action} (hs : JobStep opts d p a d' p') :
    ProcessOk d' p' := by
  have hj := h.books.job
  have hsynced : p.job = .idle → p.backgroundError = false → p.shuttingDown = false →
      Synced d p := by
    intro hjob herr hshut
    rw [hjob] at hj
    rcases hj with he | hsh | hsy
    · rw [herr] at he
      cases he
    · rw [hshut] at hsh
      cases hsh
    · exact hsy
  have hsame : ∀ q : Process, q.mem = p.mem → q.imm = p.imm → q.logfileNumber = p.logfileNumber →
      q.writer = p.writer → q.snapshots = p.snapshots →
      q.versions.logNumber = p.versions.logNumber →
      q.versions.prevLogNumber = p.versions.prevLogNumber →
      q.versions.lastSequence = p.versions.lastSequence →
      p.versions.nextFileNumber ≤ q.versions.nextFileNumber →
      (p.backgroundError = true → q.backgroundError = true) →
      d'.records = d.records → d'.logFiles = d.logFiles → LogsOk d' q := by
    intro q h1 h2 h3 h4 h5 h6 h7 h8 h9 h10 h11 h12
    exact h.logs.frame h11 (fun n hn _ => h12 ▸ hn) h1 h2 h3 h4 (by
      rw [h5, h8]
      exact h.logs.snapshots) h6 h7 h8 h9 h10
  cases hs with
  | nothing manual => exact h
  | flush manual imm hjob herr hshut himm =>
    refine ⟨hsame _ rfl rfl rfl rfl rfl rfl rfl rfl (Nat.le_succ _) id rfl rfl, ?_⟩
    exact h.beginFlush (hsynced hjob herr hshut) himm (by rw [hjob]; rfl)
  | manual request c hjob herr hshut hlevel hc =>
    exact ⟨hsame _ rfl rfl rfl rfl rfl rfl rfl rfl le_rfl id rfl rfl,
      h.beginWork (hsynced hjob herr hshut) c true⟩
  | move c f rest hjob herr hshut hc hmove hf =>
    refine ⟨hsame _ rfl rfl rfl rfl rfl rfl rfl rfl le_rfl id rfl rfl, ?_⟩
    exact h.move (hsynced hjob herr hshut)
      (pickCompaction_subset h.books.seeks hc f (by rw [hf]; exact List.mem_cons_self))
  | automatic c hjob herr hshut hc =>
    exact ⟨hsame _ rfl rfl rfl rfl rfl rfl rfl rfl le_rfl id rfl rfl,
      h.beginWork (hsynced hjob herr hshut) c false⟩
  | nested work imm hjob himm hshut =>
    refine ⟨hsame _ rfl rfl rfl rfl rfl rfl rfl rfl (Nat.le_succ _) id rfl rfl, ?_⟩
    refine h.beginFlush ?_ himm (by rw [hjob]; rfl)
    rw [hjob] at hj
    exact hj
  | built number resume imm hjob himm hshut =>
    have hd : ∀ d', d' = (if imm.toList = [] then d else d.writeTable number imm.toList) →
        d'.records = d.records ∧ d'.manifest = d.manifest ∧ d'.logFiles = d.logFiles := by
      rintro d' rfl
      split_ifs <;> exact ⟨rfl, rfl, rfl⟩
    obtain ⟨h1, h2, h3⟩ := hd _ rfl
    exact ⟨hsame _ rfl rfl rfl rfl rfl rfl rfl rfl le_rfl id h1 h3, h.built hjob h1 h2⟩
  | builtLate number resume imm hjob himm hshut =>
    have hd : ∀ d', d' = (if imm.toList = [] then d else d.writeTable number imm.toList) →
        d'.records = d.records ∧ d'.manifest = d.manifest ∧ d'.logFiles = d.logFiles := by
      rintro d' rfl
      split_ifs <;> exact ⟨rfl, rfl, rfl⟩
    obtain ⟨h1, h2, h3⟩ := hd _ rfl
    refine h.flushFails h1 h3 ?_ ?_
    · obtain ⟨files, log, hn, hle⟩ := h.books.names
      exact ⟨files, log, h2 ▸ hn.mono (h1 ▸ fun e he => he), hle⟩
    · rw [h2]
      exact h.books.named
  | entry work e rest next hjob hrest hnext =>
    refine ⟨hsame _ rfl rfl rfl rfl rfl ?_ ?_ ?_ ?_ id rfl rfl, ?_⟩
    · show (if next.2 then p.versions.takeNumber else p.versions).logNumber = _
      split_ifs <;> rfl
    · show (if next.2 then p.versions.takeNumber else p.versions).prevLogNumber = _
      split_ifs <;> rfl
    · show (if next.2 then p.versions.takeNumber else p.versions).lastSequence = _
      split_ifs <;> rfl
    · show _ ≤ (if next.2 then p.versions.takeNumber else p.versions).nextFileNumber
      split_ifs
      · exact Nat.le_succ _
      · exact le_rfl
    · exact h.entry hjob hnext rfl rfl rfl rfl rfl rfl rfl rfl rfl
  | finish work hjob hrest =>
    exact ⟨hsame _ rfl rfl rfl rfl rfl rfl rfl rfl le_rfl id rfl rfl, h.finish hjob⟩
  | append l job happ hjob hkind =>
    exact ⟨hsame _ rfl rfl rfl rfl rfl rfl rfl rfl le_rfl id rfl rfl, h.append happ hjob hkind⟩
  | syncFlush l resume spared _ hjob happ hq =>
    rw [hjob] at hj
    obtain ⟨himm, hl⟩ := hj
    obtain ⟨imm, himm⟩ := Option.isSome_iff_exists.mp himm
    have hL : p'.versions.logNumber = p.logfileNumber := by
      rw [hq]
      show l.edit.logNumber.getD _ = _
      rw [hl.logNumber]
      rfl
    refine ⟨?_, ?_⟩
    · refine h.logs.flushed himm (by simp) (fun n hn hle => ?_) (by rw [hq]) (by rw [hq]) (by rw [hq])
        (by rw [hq]) (by rw [hq]) hL ?_ (by rw [hq]; rfl) (by rw [hq]; exact le_rfl)
        (by rw [hq]; exact id)
      · exact mem_removeObsoleteFiles_logFiles hn (hL ▸ hle)
      · rw [hq]
        show l.edit.prevLogNumber.getD _ = 0
        rw [hl.prevLogNumber]
        rfl
    · refine h.installed hl happ (Or.inl rfl) (by simp) (by simp) (by rw [hq]) (by rw [hq])
        (by rw [hq]) ?_
      cases resume with
      | none => exact Or.inl (by rw [hq]; rfl)
      | some work =>
        refine Or.inr ⟨work, by rw [hq]; rfl, fun n hn => ?_, ?_⟩
        · rw [hjob]
          exact List.mem_append_right _ hn
        · have hnd := h.books.nodup
          rw [hjob] at hnd
          exact (List.nodup_append.mp hnd).2.1
  | syncMove l spared _ hjob happ hq =>
    rw [hjob] at hj
    refine ⟨?_, ?_⟩
    · refine h.logs.frame (by simp) (fun n hn hle => ?_) (by rw [hq]) (by rw [hq]) (by rw [hq])
        (by rw [hq]) (by rw [hq]; exact h.logs.snapshots) ?_ ?_ (by rw [hq]; rfl)
        (by rw [hq]; exact le_rfl) (by rw [hq]; exact id)
      · refine mem_removeObsoleteFiles_logFiles hn ?_
        rw [hq]
        show l.edit.logNumber.getD _ ≤ n
        rw [hj.logNumber]
        exact hle
      · rw [hq]
        show l.edit.logNumber.getD _ = _
        rw [hj.logNumber]
        rfl
      · rw [hq]
        show l.edit.prevLogNumber.getD _ = _
        rw [hj.prevLogNumber, h.logs.prevLog]
        rfl
    · exact h.installed hj happ (Or.inr rfl) (by simp) (by simp) (by rw [hq]) (by rw [hq])
        (by rw [hq]) (Or.inl (by rw [hq]))
  | syncInstall l work spared _ hjob happ hq =>
    rw [hjob] at hj
    refine ⟨?_, ?_⟩
    · refine h.logs.frame (by simp) (fun n hn hle => ?_) (by rw [hq]; rfl) (by rw [hq]; rfl)
        (by rw [hq]; rfl) (by rw [hq]; rfl) (by rw [hq]; exact h.logs.snapshots) ?_ ?_
        (by rw [hq]; rfl) (by rw [hq]; exact le_rfl) (by rw [hq]; exact id)
      · refine mem_removeObsoleteFiles_logFiles hn ?_
        rw [hq]
        show l.edit.logNumber.getD _ ≤ n
        rw [hj.logNumber]
        exact hle
      · rw [hq]
        show l.edit.logNumber.getD _ = _
        rw [hj.logNumber]
        rfl
      · rw [hq]
        show l.edit.prevLogNumber.getD _ = _
        rw [hj.prevLogNumber, h.logs.prevLog]
        rfl
    · exact h.installed hj happ (Or.inr rfl) (by simp) (by simp) (by rw [hq]; rfl) (by rw [hq]; rfl)
        (by rw [hq]; rfl) (Or.inl (by rw [hq]; rfl))
  | failBuild number resume whole took spared hjob =>
    exact h.flushFails rfl rfl h.books.names h.books.named
  | failFlush l resume whole took spared hjob =>
    rw [hjob] at hj
    obtain ⟨hnames, hnamed⟩ := h.failed hj.2 (Or.inl rfl) whole
    exact @ProcessOk.flushFails _ _ p h p.pendingOutputs resume (by simp) (by simp) hnames hnamed
  | failMove l whole took spared _ hjob hq =>
    rw [hjob] at hj
    obtain ⟨hnames, hnamed⟩ := h.failed hj (Or.inr rfl) whole
    exact h.jobFailed (by simp) (by simp) hnames hnamed (by rw [hq]) (by rw [hq]) (by rw [hq])
      (by rw [hq]) (by rw [hq]) (Or.inl (by rw [hq])) (by rw [hq]) (by rw [hq]) (by rw [hq])
  | failWork work whole took spared _ hjob hq =>
    refine h.jobFailed rfl rfl h.books.names h.books.named (by rw [hq]; rfl) (by rw [hq]; rfl)
      (by rw [hq]; rfl) (by rw [hq]; rfl) (by rw [hq]; rfl) ?_ (by rw [hq]) (by rw [hq]; rfl)
      (by rw [hq]; rfl)
    rw [hq]
    cases took with
    | true => exact Or.inr rfl
    | false => exact Or.inl rfl
  | failInstall l work whole took spared _ hjob hq =>
    rw [hjob] at hj
    obtain ⟨hnames, hnamed⟩ := h.failed hj (Or.inr rfl) whole
    exact h.jobFailed (by simp) (by simp) hnames hnamed (by rw [hq]; rfl) (by rw [hq]; rfl)
      (by rw [hq]; rfl) (by rw [hq]; rfl) (by rw [hq]; rfl) (Or.inl (by rw [hq]; rfl)) (by rw [hq])
      (by rw [hq]; rfl) (by rw [hq]; rfl)

/-- **Every step of a process keeps the books.** -/
theorem ProcessOk.step (h : ProcessOk d p) {a : Action} (hs : p.step opts d a = some (d', p')) :
    ProcessOk d' p' := by
  rcases Process.step_cases h.logs hs with ⟨hq, hlogs⟩ | hjob
  · exact ⟨hlogs, h.books.quiet h.logs hq⟩
  · exact h.jobStep hjob

end Ambar
