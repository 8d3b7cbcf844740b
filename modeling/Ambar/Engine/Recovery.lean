import Ambar.Engine.Books

/-!
# Opening a database

`DB::open` reads the manifest, replays the logs that the manifest does not cover into
tables of level 0, starts a new log and a new manifest, and lets CURRENT name it. A
process may stop at any point of this; what it leaves can be opened again.

* `DiskOk`: what a database without a process satisfies, with what its manifest says.
* `ProcessOk.disk`: what the end of a process leaves.
* `DiskOk.recover`: what recovery works out; the numbers it gives are free.
* `DiskOk.open_stopped`, `DiskOk.open_installed`, `DiskOk.open_ok`: the ends of an open.
-/

namespace Ambar

/-! ## The numbers recovery gives -/

/-- The numbers rise from the counter on, and the counter ends above them and above every
    log. -/
theorem numberTables_spec (logs : List (ℕ × List MemTable)) :
    ∀ next, next ≤ (numberTables next logs).2 ∧
      (∀ w ∈ (numberTables next logs).1, next ≤ w.1 ∧ w.1 < (numberTables next logs).2) ∧
      (∀ l ∈ logs, l.1 < (numberTables next logs).2) ∧
      (numberTables next logs).1.Pairwise fun a b => a.1 < b.1 := by
  induction logs with
  | nil => simp [numberTables]
  | cons l logs ih =>
    intro next
    obtain ⟨log, mems⟩ := l
    obtain ⟨hle, hw, hlogs, hsorted⟩ := ih (max (next + mems.length) (log + 1))
    have hhere : ∀ w ∈ mems.zipIdx.map fun m => (next + m.2, m.1),
        next ≤ w.1 ∧ w.1 < next + mems.length := by
      intro w hw
      obtain ⟨m, hm, rfl⟩ := List.mem_map.mp hw
      have := List.snd_lt_of_mem_zipIdx hm
      simp only
      omega
    have hmax := Nat.le_max_left (next + mems.length) (log + 1)
    have hmax' := Nat.le_max_right (next + mems.length) (log + 1)
    simp only [numberTables]
    refine ⟨by omega, fun w hmem => ?_, fun l hmem => ?_, ?_⟩
    · rcases List.mem_append.mp hmem with hmem | hmem
      · have := hhere w hmem
        omega
      · have := hw w hmem
        omega
    · rcases List.mem_cons.mp hmem with rfl | hmem
      · simp only
        omega
      · exact hlogs l hmem
    · refine List.pairwise_append.mpr ⟨?_, hsorted, fun a ha b hb => ?_⟩
      · rw [List.pairwise_map]
        refine List.pairwise_iff_getElem.mpr fun i j hi hj hij => ?_
        simp only [List.getElem_zipIdx]
        omega
      · have h1 := hhere a ha
        have h2 := hw b hb
        omega

/-- A record that is not empty ends with its largest sequence. -/
theorem batchEntries_last {ops : List Op} :
    ∀ {first : ℕ}, ops ≠ [] → ∃ e ∈ batchEntries first ops, e.sequence + 1 = first + ops.length := by
  induction ops with
  | nil => exact fun h => absurd rfl h
  | cons op ops ih =>
    intro first _
    by_cases hops : ops = []
    · subst hops
      exact ⟨op.entry first, List.mem_cons_self, by simp⟩
    · obtain ⟨e, he, heq⟩ := @ih (first + 1) hops
      refine ⟨e, List.mem_cons_of_mem _ he, ?_⟩
      simp only [List.length_cons]
      omega

/-- `maxSequence` is the largest sequence of the records' entries. -/
theorem maxSequence_spec (records : List LogRecord) :
    (∀ r ∈ records, ∀ e ∈ r.entries, e.sequence ≤ maxSequence records) ∧
      (maxSequence records = 0 ∨
        ∃ r ∈ records, ∃ e ∈ r.entries, e.sequence = maxSequence records) := by
  induction records using List.reverseRecOn with
  | nil => simp [maxSequence]
  | append_singleton records r ih =>
    obtain ⟨hle, heq⟩ := ih
    have hfold : maxSequence (records ++ [r]) =
        if r.ops = [] then maxSequence records else max (maxSequence records) (r.next - 1) := by
      simp [maxSequence]
    have hold : maxSequence records = 0 ∨
        ∃ r' ∈ records ++ [r], ∃ e ∈ r'.entries, e.sequence = maxSequence records :=
      heq.imp id fun ⟨r', hr', he⟩ => ⟨r', List.mem_append_left _ hr', he⟩
    rw [hfold]
    by_cases hops : r.ops = []
    · rw [if_pos hops]
      refine ⟨fun r' hr' e he => ?_, hold⟩
      rcases List.mem_append.mp hr' with hr' | hr'
      · exact hle r' hr' e he
      · rw [List.mem_singleton.mp hr'] at he
        simp [LogRecord.entries, hops, batchEntries] at he
    · rw [if_neg hops]
      obtain ⟨last, hlast, hseq⟩ := @batchEntries_last r.ops r.sequence hops
      refine ⟨fun r' hr' e he => ?_, ?_⟩
      · rcases List.mem_append.mp hr' with hr' | hr'
        · exact le_max_of_le_left (hle r' hr' e he)
        · rw [List.mem_singleton.mp hr'] at he
          have := (batchEntries_bounds he).2
          unfold LogRecord.next
          omega
      · rcases max_choice (maxSequence records) (r.next - 1) with hmax | hmax <;> rw [hmax]
        · exact hold
        · refine Or.inr ⟨r, by simp, last, hlast, ?_⟩
          unfold LogRecord.next
          omega

/-! ## A database without a process -/

/-- What a database satisfies, whatever its tables hold, when no process has it open. Its
    manifest names the version `files` up to the log `log`. -/
structure DiskOk (d : Disk) (files : Levels) (log next seq : ℕ) : Prop where
  reads : Reads d.manifest files log next seq
  ordered : Ordered d.records
  wellFormed : ∀ r ∈ d.records, 0 < r.1 ∧ ∀ e ∈ r.2.entries, e.key.WellFormed
  present : ∀ r ∈ d.records, log ≤ r.1 → r.1 ∈ d.logFiles
  seq_le : ∀ e ∈ below d.records log, e.sequence ≤ seq
  seq_lt : seq < kMaxSequenceNumber
  lt_max : ∀ r ∈ d.records, ∀ e ∈ r.2.entries, e.sequence < kMaxSequenceNumber

theorem diskOk_created : DiskOk Engine.created.disk emptyLevels 0 2 0 where
  reads := reads_newDb
  ordered := List.Pairwise.nil
  wellFormed := by simp [Engine.created]
  present := by simp [Engine.created]
  seq_le := by simp [Engine.created, below]
  seq_lt := by decide
  lt_max := by simp [Engine.created]

variable {opts : Options} {d d' : Disk} {p : Process} {files : Levels} {log next seq : ℕ}

/-- What the end of a process leaves. -/
theorem ProcessOk.disk (h : ProcessOk d p) : ∃ files log next seq, DiskOk d files log next seq := by
  obtain ⟨files, log, ⟨next, seq, hr, hseq, hlt⟩, hL, -⟩ := h.books.names
  refine ⟨files, log, next, seq, hr, h.logs.ordered, h.logs.wellFormed, ?_, hseq, hlt, ?_⟩
  · exact fun r hmem hle => h.logs.present r hmem (hL.trans hle)
  · intro r hmem e he
    rcases h.logs.seq r hmem with hle | ⟨-, stage, -, hw⟩
    · exact (hle e he).trans_lt h.logs.seq_lt
    · have h1 := (h.logs.writing _ _ hw).2.1
      have h2 := (batchEntries_bounds he).2
      unfold LogRecord.next at h1
      omega

/-- What recovery works out, against what the manifest says. -/
structure Recovery.Ok (r : Recovery) (d : Disk) (files : Levels) (log next seq : ℕ) : Prop where
  files : r.versions.files = files
  fileToCompact : r.versions.fileToCompact = none
  logNumber : r.versions.logNumber = log
  prevLogNumber : r.versions.prevLogNumber = 0
  manifest_lt : d.manifestNumber < r.versions.manifestFileNumber
  next_lt : next < r.versions.nextFileNumber
  next_le : r.versions.nextFileNumber ≤ r.next
  written : ∀ w ∈ r.written, r.versions.nextFileNumber ≤ w.1 ∧ w.1 < r.next
  sorted : r.written.Pairwise fun a b => a.1 < b.1
  logs_lt : ∀ n ∈ d.logFiles, n < r.next
  seq_le : seq ≤ r.lastSequence
  records_le : ∀ rec ∈ d.records, ∀ e ∈ rec.2.entries, e.sequence ≤ r.lastSequence
  lastSequence_lt : r.lastSequence < kMaxSequenceNumber

theorem mem_logsToReplay {v : VersionSet} {n : ℕ} :
    n ∈ d.logsToReplay v ↔ n ∈ d.logFiles ∧ (v.logNumber ≤ n ∨ n = v.prevLogNumber) := by
  simp only [Disk.logsToReplay, List.mem_filter, List.mem_range, decide_eq_true_eq,
    and_iff_right_iff_imp]
  intro h
  exact Nat.lt_succ_of_le (Finset.le_sup (f := id) h.1)

theorem mem_log {n : ℕ} {r : LogRecord} : r ∈ d.log n ↔ (n, r) ∈ d.records := by
  simp [Disk.log]

theorem DiskOk.recover (h : DiskOk d files log next seq) {others : Finset ℕ}
    {full : ℕ → ℕ → Bool} {r : Recovery} (hr : d.recover others full = .ok r) :
    r.Ok d files log next seq := by
  obtain ⟨v, hv, hfiles, hseek, hlog, hprev, hseq, hnext, hown, hcounter⟩ :=
    h.reads.recover d.manifestNumber
  unfold replayEdits at hv
  unfold Disk.recover at hr
  rw [hv] at hr
  simp only at hr
  split_ifs at hr with hmissing
  cases hr
  obtain ⟨hle, hw, hlogs, hsorted⟩ := numberTables_spec
    ((d.logsToReplay v).map fun n => (n, replayLog (full n) 0 none (d.log n))) v.nextFileNumber
  obtain ⟨hmax, hmax'⟩ := maxSequence_spec ((d.logsToReplay v).flatMap d.log)
  have hlog_lt := h.reads.log_lt
  refine
    { files := hfiles, fileToCompact := hseek, logNumber := hlog, prevLogNumber := hprev,
      manifest_lt := hown, next_lt := by simp only; omega, next_le := hle, written := hw,
      sorted := hsorted, logs_lt := ?_, seq_le := hseq ▸ le_max_left _ _, records_le := ?_,
      lastSequence_lt := ?_ }
  · intro n hn
    by_cases hnl : log ≤ n
    · exact hlogs (n, _) (List.mem_map_of_mem (mem_logsToReplay.mpr ⟨hn, Or.inl (hlog ▸ hnl)⟩))
    · simp only
      omega
  · intro rec hrec e he
    by_cases hnl : log ≤ rec.1
    · refine le_max_of_le_right (hmax rec.2 (List.mem_flatMap.mpr ⟨rec.1, ?_, ?_⟩) e he)
      · exact mem_logsToReplay.mpr ⟨h.present rec hrec hnl, Or.inl (hlog ▸ hnl)⟩
      · exact mem_log.mpr hrec
    · refine le_max_of_le_left ?_
      rw [hseq]
      exact h.seq_le e ⟨rec, hrec, by omega, he⟩
  · refine max_lt (hseq ▸ h.seq_lt) ?_
    rcases hmax' with hz | ⟨rec, hrec, e, he, heq⟩
    · rw [hz]
      decide
    · obtain ⟨n, -, hn⟩ := List.mem_flatMap.mp hrec
      rw [← heq]
      exact h.lt_max (n, rec) (mem_log.mp hn) e he

/-! ## What an open leaves -/

namespace Recovery.Ok

variable {r : Recovery} (h : r.Ok d files log next seq)

include h

/-- The numbers of the tables recovery writes. -/
theorem outputs_number {o : Output} (ho : o ∈ r.outputs) :
    r.versions.nextFileNumber ≤ o.number ∧ o.number < r.next := by
  obtain ⟨w, hw, heq⟩ := List.mem_filterMap.mp ho
  have hn : o.number = w.1 := by
    split at heq
    · cases heq
      rfl
    · cases heq
  rw [hn]
  exact h.written w hw

theorem outputs_sorted : r.outputs.Pairwise fun a b => a.number < b.number := by
  refine h.sorted.filterMap _ fun a b hab o ho o' ho' => ?_
  split at ho
  · cases ho
    split at ho'
    · cases ho'
      exact hab
    · cases ho'
  · cases ho

theorem outputs_nodup : (r.outputs.map (·.number)).Nodup := by
  rw [List.Nodup, List.pairwise_map]
  exact h.outputs_sorted.imp fun hlt => hlt.ne

/-- The tables of the open are new. -/
theorem edit_extends (hr : Reads d.manifest files log next seq) :
    (r.ready.completeEdit (r.edit opts)).Extends [r.ready.writeSnapshot] r.ready.files where
  nodup := by
    show ((r.outputs.map fun o => ((0, o.file opts) : ℕ × FileMetaData)).map
      fun q => q.2.number).Nodup
    rw [List.map_map]
    exact h.outputs_nodup
  new := by
    intro q hq
    refine Or.inl fun p hp hpq => ?_
    obtain ⟨o, ho, rfl⟩ := List.mem_map.mp hq
    rw [allPairs, List.flatMap_singleton] at hp
    obtain ⟨g, hg, rfl⟩ := List.mem_map.mp hp
    have hmem := (VersionSet.mem_writeSnapshot.mp hg).2
    have h1 := hr.number_lt (h.files ▸ hmem)
    have h2 := (h.outputs_number ho).1
    have h3 := h.next_lt
    have h4 : g.2.number = o.number := hpq
    omega

/-- The new manifest names the version of the new process. -/
theorem reads_install (hr : Reads d.manifest files log next seq) :
    Reads (r.install opts d).manifest (r.process opts).versions.files r.next (r.next + 1)
      r.lastSequence := by
  have hlisted : Listed d.manifest r.ready.files := h.files ▸ hr.listed
  have hextends : (r.ready.completeEdit (r.edit opts)).Extends _ _ := h.edit_extends hr
  have happend := (listed_writeSnapshot hlisted).append hextends
  refine happend.reads (r.ready.completeEdit_complete rfl rfl) (Nat.lt_succ_self _) fun p hp => ?_
  rw [allPairs_append] at hp
  rcases List.mem_append.mp hp with hp | hp
  · rw [allPairs, List.flatMap_singleton] at hp
    obtain ⟨g, hg, rfl⟩ := List.mem_map.mp hp
    have h1 := hr.number_lt (h.files ▸ (VersionSet.mem_writeSnapshot.mp hg).2)
    have h2 := h.next_lt
    have h3 := h.next_le
    simp only
    omega
  · obtain ⟨q, hq, rfl⟩ := List.mem_map.mp hp
    obtain ⟨o, ho, rfl⟩ := List.mem_map.mp hq
    have h1 := (h.outputs_number ho).2
    simp only [Output.file]
    omega

end Recovery.Ok

namespace DiskOk

variable (h : DiskOk d files log next seq) {r : Recovery} (hr : r.Ok d files log next seq)

include h hr

theorem records_lt : ∀ rec ∈ d.records, rec.1 < r.next := by
  intro rec hrec
  by_cases hle : log ≤ rec.1
  · exact hr.logs_lt _ (h.present rec hrec hle)
  · have h1 := h.reads.log_lt
    have h2 := hr.next_lt
    have h3 := hr.next_le
    omega

/-- The new log takes nothing from the records. -/
theorem createLog_records : (d.createLog r.next).records = d.records :=
  Disk.createLog_records fun rec hrec => (h.records_lt hr rec hrec).ne

/-- An open that stops before CURRENT names the new manifest. -/
theorem open_stopped (tables : ℕ) (logCreated : Bool) :
    DiskOk (if logCreated then (d.writeOutputs (r.outputs.take tables)).createLog r.next
      else d.writeOutputs (r.outputs.take tables)) files log next seq := by
  cases logCreated with
  | false => exact { h with }
  | true =>
    have hrecords : ((d.writeOutputs (r.outputs.take tables)).createLog r.next).records =
        d.records := h.createLog_records hr
    exact
      { reads := h.reads
        ordered := hrecords ▸ h.ordered
        wellFormed := hrecords ▸ h.wellFormed
        present := hrecords ▸ fun rec hrec hle => Finset.mem_insert_of_mem (h.present rec hrec hle)
        seq_le := hrecords ▸ h.seq_le
        seq_lt := h.seq_lt
        lt_max := hrecords ▸ h.lt_max }

/-- An open that stops once CURRENT names the new manifest. -/
theorem open_installed :
    DiskOk (r.install opts d) (r.process opts).versions.files r.next (r.next + 1)
      r.lastSequence := by
  have hrecords : (r.install opts d).records = d.records := h.createLog_records hr
  exact
    { reads := hr.reads_install h.reads
      ordered := hrecords ▸ h.ordered
      wellFormed := hrecords ▸ h.wellFormed
      present := hrecords ▸ fun rec hrec hle => absurd (h.records_lt hr rec hrec) (by omega)
      seq_le := hrecords ▸ fun e ⟨rec, hrec, _, he⟩ => hr.records_le rec hrec e he
      seq_lt := hr.lastSequence_lt
      lt_max := hrecords ▸ h.lt_max }

/-- **An open that succeeds** leaves a process that agrees with its database. -/
theorem open_ok (spared : Spared) :
    ProcessOk (removeObsoleteFiles (r.install opts d) (r.process opts) spared)
      (r.process opts) := by
  have hd : DiskOk (r.install opts d) (r.process opts).versions.files r.next (r.next + 1)
      r.lastSequence := h.open_installed hr
  have hrecords : (r.install opts d).records = d.records := h.createLog_records hr
  have hlt : ∀ rec ∈ (r.install opts d).records, rec.1 < r.next :=
    hrecords ▸ h.records_lt hr
  have hpos : 0 < r.next := by
    have h1 := hr.next_lt
    have h2 := hr.next_le
    omega
  have hnames : ((removeObsoleteFiles (r.install opts d) (r.process opts) spared)).Names
      (r.install opts d).manifest (r.process opts).versions.files r.next := by
    refine ⟨r.next + 1, r.lastSequence, hd.reads, ?_, hd.seq_lt⟩
    rw [removeObsoleteFiles_records]
    exact hd.seq_le
  have hprocess : (r.process opts).logfileNumber = r.next := rfl
  have hlogNumber : (r.process opts).versions.logNumber = r.next := rfl
  have hlogs : LogsOk (r.install opts d) (r.process opts) :=
    { ordered := hd.ordered
      wellFormed := hd.wellFormed
      le_log := fun rec hrec => (hlt rec hrec).le
      seq := hrecords ▸ fun rec hrec => Or.inl (hr.records_le rec hrec)
      seq_lt := hr.lastSequence_lt
      writing := fun rec stage hw => by cases hw
      rotating := fun n hw => by cases hw
      present := fun rec hrec hle => absurd (hlt rec hrec) (by omega)
      current := Finset.mem_insert_self _ _
      log_pos := hpos
      log_le := le_rfl
      log_lt := Nat.lt_succ_self _
      prevLog := rfl
      immNone := fun _ => rfl
      immSome := fun m hm => by cases hm
      memSub := by simp [Recovery.process]
      memSeq := by simp [Recovery.process]
      memComplete := fun rec hrec heq => absurd (hlt rec hrec) (by omega)
      snapshots := Snapshots.Ok.empty _ }
  refine ⟨?_, ?_⟩
  · exact hlogs.frame (by simp) (fun n hn hle => mem_removeObsoleteFiles_logFiles hn hle) rfl rfl rfl
      rfl hlogs.snapshots rfl rfl rfl le_rfl id
  · refine
      { names := ⟨(r.process opts).versions.files, r.next, ?_, le_rfl, le_rfl⟩, job := Or.inr (Or.inr ?_), named := ?_,
        reserved := ?_, nodup := List.nodup_nil, seeks := ?_ }
    · rw [removeObsoleteFiles_manifest]
      exact hnames
    · unfold Synced
      rw [removeObsoleteFiles_manifest]
      exact hnames
    · rw [removeObsoleteFiles_manifest]
      intro n hn
      obtain ⟨q, hq, rfl⟩ := List.mem_map.mp hn
      exact ⟨hd.reads.lt_next q hq, fun hw => by cases hw⟩
    · exact fun n hn => by cases hn
    · exact fun level f hf => by cases hf

end DiskOk

/-! ## The whole engine -/

/-- What holds of a database, with or without a process. -/
def Engine.Ok (e : Engine) : Prop :=
  match e.process with
  | none => ∃ files log next seq, DiskOk e.disk files log next seq
  | some p => ProcessOk e.disk p

theorem engineOk_created : Engine.created.Ok := ⟨_, _, _, _, diskOk_created⟩

/-- What a step of the engine is. -/
inductive Engine.Steps (opts : Options) (e : Engine) : Action → Engine → Prop where
  | crash (p : Process) (hp : e.process = some p) : Steps opts e .crash (e.record e.disk none)
  | process (p : Process) (a : Action) (d' : Disk) (p' : Process) (hp : e.process = some p)
      (hs : p.step opts e.disk a = some (d', p')) : Steps opts e a (e.record d' (some p'))
  | stopped (others : Finset ℕ) (full : ℕ → ℕ → Bool) (tables : ℕ) (logCreated : Bool)
      (r : Recovery) (hp : e.process = none) (hr : e.disk.recover others full = .ok r) :
      Steps opts e (.open others full (.stopped tables logCreated))
        (e.record (if logCreated then (e.disk.writeOutputs (r.outputs.take tables)).createLog r.next
          else e.disk.writeOutputs (r.outputs.take tables)) none)
  | installed (others : Finset ℕ) (full : ℕ → ℕ → Bool) (r : Recovery) (hp : e.process = none)
      (hr : e.disk.recover others full = .ok r) :
      Steps opts e (.open others full .installed) (e.record (r.install opts e.disk) none)
  | ok (others : Finset ℕ) (full : ℕ → ℕ → Bool) (spared : Spared) (r : Recovery)
      (hp : e.process = none) (hr : e.disk.recover others full = .ok r) :
      Steps opts e (.open others full (.ok spared))
        (e.record (removeObsoleteFiles (r.install opts e.disk) (r.process opts) spared)
          (some (r.process opts)))

theorem Engine.step_steps {e e' : Engine} {a : Action} (h : e.step opts a = some e') :
    e.Steps opts a e' := by
  unfold Engine.step at h
  split at h
  · next p hp =>
    cases h
    exact .crash p hp
  · next p hp _ =>
    obtain ⟨⟨d', p'⟩, hs, rfl⟩ := Option.map_eq_some_iff.mp h
    exact .process p _ d' p' hp hs
  · next others full outcome hp =>
    obtain ⟨⟨d', p'⟩, hs, rfl⟩ := Option.map_eq_some_iff.mp h
    unfold Disk.open at hs
    split at hs
    · cases hs
    · next r hr =>
      cases outcome with
      | stopped tables logCreated =>
        cases hs
        exact .stopped others full tables logCreated r hp hr
      | installed =>
        cases hs
        exact .installed others full r hp hr
      | ok spared =>
        cases hs
        exact .ok others full spared r hp hr
  · cases h

/-- **Every step keeps the books.** -/
theorem Engine.Ok.step {e e' : Engine} {a : Action} (h : e.Ok) (hs : e.step opts a = some e') :
    e'.Ok := by
  have hnone : e.process = none → ∃ files log next seq, DiskOk e.disk files log next seq := by
    intro hp
    unfold Engine.Ok at h
    rwa [hp] at h
  have hsome : ∀ p, e.process = some p → ProcessOk e.disk p := by
    intro p hp
    unfold Engine.Ok at h
    rwa [hp] at h
  cases Engine.step_steps hs with
  | crash p hp => exact (hsome p hp).disk
  | process p _ d' p' hp hs' => exact (hsome p hp).step hs'
  | stopped others full tables logCreated r hp hr =>
    obtain ⟨files, log, next, seq, hd⟩ := hnone hp
    exact ⟨files, log, next, seq, hd.open_stopped (hd.recover hr) tables logCreated⟩
  | installed others full r hp hr =>
    obtain ⟨files, log, next, seq, hd⟩ := hnone hp
    exact ⟨_, _, _, _, hd.open_installed (hd.recover hr)⟩
  | ok others full spared r hp hr =>
    obtain ⟨files, log, next, seq, hd⟩ := hnone hp
    exact hd.open_ok (hd.recover hr) spared

end Ambar
