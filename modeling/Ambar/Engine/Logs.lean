import Ambar.Engine.Records

/-!
# The logs and the memtables

What holds between the logs on disk and the memtables of the process that writes
them, at every point where the mutex is free: `mem_` holds the records of the current
log, `imm_` those of the logs since the one the version is installed up to, and the
last sequence bounds them. A record in flight is in the log before it is in `mem_`,
and above the last sequence until it is published. A record whose write failed may
stay in the log without being in `mem_`; then no later write begins.

* `LogsOk`: the invariant.
* `LogsOk.beginWrite`, …, `LogsOk.endRotate`: the steps of the writer.
* `LogsOk.frame`, `LogsOk.flushed`: what the background thread does to it.
-/

namespace Ambar

/-- The logs and the memtables agree. -/
structure LogsOk (d : Disk) (p : Process) : Prop where
  ordered : Ordered d.records
  wellFormed : ∀ r ∈ d.records, 0 < r.1 ∧ ∀ e ∈ r.2.entries, e.key.WellFormed
  le_log : ∀ r ∈ d.records, r.1 ≤ p.logfileNumber
  seq : ∀ r ∈ d.records, (∀ e ∈ r.2.entries, e.sequence ≤ p.versions.lastSequence) ∨
    r.1 = p.logfileNumber ∧ ∃ stage, stage ≠ .started ∧ p.writer = .writing r.2 stage
  seq_lt : p.versions.lastSequence < kMaxSequenceNumber
  writing : ∀ r stage, p.writer = .writing r stage →
    r.sequence = p.versions.lastSequence + 1 ∧ r.next ≤ kMaxSequenceNumber ∧
      (stage = .logged ∨ stage = .inserted → (p.logfileNumber, r) ∈ d.records)
  rotating : ∀ n, p.writer = .rotating n →
    p.logfileNumber < n ∧ n < p.versions.nextFileNumber ∧ n ∈ d.logFiles ∧ p.imm = none ∧
      ∀ r ∈ d.records, r.1 = p.logfileNumber → ∀ e ∈ r.2.entries, e ∈ p.mem
  present : ∀ r ∈ d.records, p.versions.logNumber ≤ r.1 → r.1 ∈ d.logFiles
  current : p.logfileNumber ∈ d.logFiles
  log_pos : 0 < p.logfileNumber
  log_le : p.versions.logNumber ≤ p.logfileNumber
  log_lt : p.logfileNumber < p.versions.nextFileNumber
  prevLog : p.versions.prevLogNumber = 0
  immNone : p.imm = none → p.versions.logNumber = p.logfileNumber
  immSome : ∀ m, p.imm = some m →
    ∀ e, e ∈ m ↔ e ∈ between d.records p.versions.logNumber p.logfileNumber
  memSub : ∀ e ∈ p.mem, e ∈ between d.records p.logfileNumber (p.logfileNumber + 1)
  memSeq : ∀ e ∈ p.mem, e.sequence ≤ p.versions.lastSequence ∨
    ∃ r, p.writer = .writing r .inserted ∧ e ∈ r.entries
  memComplete : ∀ r ∈ d.records, r.1 = p.logfileNumber → (∀ e ∈ r.2.entries, e ∈ p.mem) ∨
    p.backgroundError = true ∨ ∃ stage, stage ≠ .inserted ∧ p.writer = .writing r.2 stage
  snapshots : p.snapshots.Ok p.versions.lastSequence

namespace LogsOk

variable {d d' : Disk} {p p' : Process}

/-- What the background thread and the readers leave alone. -/
theorem frame (h : LogsOk d p) (hrecords : d'.records = d.records)
    (hlogs : ∀ n ∈ d.logFiles, p.versions.logNumber ≤ n → n ∈ d'.logFiles)
    (hmem : p'.mem = p.mem) (himm : p'.imm = p.imm)
    (hlog : p'.logfileNumber = p.logfileNumber) (hwriter : p'.writer = p.writer)
    (hsnap : p'.snapshots.Ok p'.versions.lastSequence)
    (hL : p'.versions.logNumber = p.versions.logNumber)
    (hprev : p'.versions.prevLogNumber = p.versions.prevLogNumber)
    (hseq : p'.versions.lastSequence = p.versions.lastSequence)
    (hnext : p.versions.nextFileNumber ≤ p'.versions.nextFileNumber)
    (herr : p.backgroundError = true → p'.backgroundError = true) : LogsOk d' p' where
  ordered := hrecords ▸ h.ordered
  wellFormed := hrecords ▸ h.wellFormed
  le_log := by
    rw [hrecords, hlog]
    exact h.le_log
  seq := by
    rw [hrecords, hlog, hseq, hwriter]
    exact h.seq
  seq_lt := hseq ▸ h.seq_lt
  writing := by
    rw [hrecords, hlog, hseq, hwriter]
    exact h.writing
  rotating := by
    rw [hlog, hwriter, himm, hrecords, hmem]
    intro n hn
    obtain ⟨h1, h2, h3, h4⟩ := h.rotating n hn
    have hle := h.log_le
    exact ⟨h1, by omega, hlogs n h3 (by omega), h4⟩
  present := by
    rw [hrecords, hL]
    exact fun r hr hle => hlogs _ (h.present r hr hle) hle
  current := by
    rw [hlog]
    exact hlogs _ h.current h.log_le
  log_pos := hlog ▸ h.log_pos
  log_le := by
    rw [hL, hlog]
    exact h.log_le
  log_lt := by
    have := h.log_lt
    rw [hlog]
    omega
  prevLog := hprev.trans h.prevLog
  immNone := by
    rw [himm, hL, hlog]
    exact h.immNone
  immSome := by
    rw [himm, hL, hlog, hrecords]
    exact h.immSome
  memSub := by
    rw [hmem, hlog, hrecords]
    exact h.memSub
  memSeq := by
    rw [hmem, hseq, hwriter]
    exact h.memSeq
  memComplete := by
    rw [hmem, hlog, hrecords, hwriter]
    exact fun r hr hr' => (h.memComplete r hr hr').imp id (Or.imp herr id)
  snapshots := hsnap

/-! ## The writer -/

/-- With no write in flight every record is at most the last sequence. -/
theorem seq_of_idle (h : LogsOk d p) (hw : ∀ r stage, p.writer ≠ .writing r stage) :
    ∀ r ∈ d.records, ∀ e ∈ r.2.entries, e.sequence ≤ p.versions.lastSequence := by
  intro r hr
  rcases h.seq r hr with hle | ⟨-, stage, -, hwr⟩
  · exact hle
  · exact absurd hwr (hw _ _)

theorem beginWrite (h : LogsOk d p) {ops : List Op} (hs : p.beginWrite ops = some p') :
    LogsOk d p' := by
  unfold Process.beginWrite at hs
  cases hw : p.writer with
  | writing r stage => simp [hw] at hs
  | rotating n => simp [hw] at hs
  | idle =>
    simp only [hw, Option.ite_none_right_eq_some, Option.some.injEq] at hs
    obtain ⟨⟨-, hlt⟩, rfl⟩ := hs
    have hidle : ∀ r stage, p.writer ≠ .writing r stage := by simp [hw]
    exact { h with
      seq := fun r hr => Or.inl (h.seq_of_idle hidle r hr)
      writing := by
        rintro r stage heq
        cases heq
        refine ⟨rfl, ?_, by simp⟩
        show p.versions.lastSequence + 1 + ops.length ≤ kMaxSequenceNumber
        omega
      rotating := by simp
      memSeq := fun e he => by
        rcases h.memSeq e he with hle | ⟨r, hr, -⟩
        · exact Or.inl hle
        · exact absurd hr (hidle _ _)
      memComplete := fun r hr hr' => by
        rcases h.memComplete r hr hr' with hall | herr | ⟨stage, -, hwr⟩
        · exact Or.inl hall
        · exact Or.inr (Or.inl herr)
        · exact absurd hwr (hidle _ _) }

theorem logWrite (h : LogsOk d p) {whole ok : Bool} (hs : p.logWrite d whole ok = some (d', p')) :
    LogsOk d' p' := by
  unfold Process.logWrite at hs
  cases hw : p.writer with
  | idle => simp [hw] at hs
  | rotating n => simp [hw] at hs
  | writing r stage =>
    cases stage with
    | logged => simp [hw] at hs
    | inserted => simp [hw] at hs
    | failed => simp [hw] at hs
    | started =>
      simp only [hw, Option.ite_none_right_eq_some, Option.some.injEq, Prod.mk.injEq] at hs
      obtain ⟨hok, rfl, rfl⟩ := hs
      obtain ⟨hseq, hnext, -⟩ := h.writing r .started hw
      -- before the append every record is at most the last sequence
      have hold : ∀ a ∈ d.records, ∀ e ∈ a.2.entries, e.sequence ≤ p.versions.lastSequence := by
        intro a ha
        rcases h.seq a ha with hle | ⟨-, stage, hne, hwr⟩
        · exact hle
        · rw [hw] at hwr
          cases hwr
          exact absurd rfl hne
      have hstage : ∀ b : Bool, (if b then WriteStage.logged else .failed) ≠ .started ∧
          (if b then WriteStage.logged else .failed) ≠ .inserted := by decide
      have hmemSeq : ∀ e ∈ p.mem, e.sequence ≤ p.versions.lastSequence := by
        intro e he
        rcases h.memSeq e he with hle | ⟨a, ha, -⟩
        · exact hle
        · rw [hw] at ha
          cases ha
      have hcomplete : ∀ a ∈ d.records, a.1 = p.logfileNumber → (∀ e ∈ a.2.entries, e ∈ p.mem) ∨
          p.backgroundError = true ∨ ∃ stage, stage ≠ .inserted ∧
            Writer.writing r (if ok then .logged else .failed) = .writing a.2 stage := by
        intro a ha ha'
        rcases h.memComplete a ha ha' with hall | herr | ⟨stage, -, hwr⟩
        · exact Or.inl hall
        · exact Or.inr (Or.inl herr)
        · rw [hw] at hwr
          cases hwr
          exact Or.inr (Or.inr ⟨_, (hstage ok).2, rfl⟩)
      by_cases hwhole : whole = true
      · subst hwhole
        refine { h with
          ordered := h.ordered.append h.le_log fun a ha x hx => ?_
          wellFormed := fun a ha => ?_
          le_log := fun a ha => ?_
          seq := fun a ha => ?_
          writing := ?_
          rotating := by simp
          present := fun a ha hle => ?_
          immSome := fun m hm e => ?_
          memSub := fun e he => ?_
          memSeq := fun e he => Or.inl (hmemSeq e he)
          memComplete := fun a ha ha' => ?_ }
        · have := hold a ha x hx
          omega
        · rcases List.mem_append.mp ha with ha | ha
          · exact h.wellFormed a ha
          · rw [List.mem_singleton.mp ha]
            exact ⟨h.log_pos, fun e he => batchEntries_wellFormed hnext e he⟩
        · rcases List.mem_append.mp ha with ha | ha
          · exact h.le_log a ha
          · rw [List.mem_singleton.mp ha]
        · rcases List.mem_append.mp ha with ha | ha
          · exact Or.inl (hold a ha)
          · rw [List.mem_singleton.mp ha]
            exact Or.inr ⟨rfl, _, (hstage ok).1, rfl⟩
        · rintro a stage heq
          cases heq
          exact ⟨hseq, hnext, fun _ => List.mem_append_right _ (List.mem_singleton.mpr rfl)⟩
        · rcases List.mem_append.mp ha with ha | ha
          · exact h.present a ha hle
          · rw [List.mem_singleton.mp ha]
            exact h.current
        · show e ∈ m ↔ e ∈ between (d.records ++ [(p.logfileNumber, r)]) _ _
          rw [between_append le_rfl]
          exact h.immSome m hm e
        · obtain ⟨a, ha, hrest⟩ := h.memSub e he
          exact ⟨a, List.mem_append_left _ ha, hrest⟩
        · rcases List.mem_append.mp ha with ha | ha
          · exact hcomplete a ha ha'
          · rw [List.mem_singleton.mp ha]
            exact Or.inr (Or.inr ⟨_, (hstage ok).2, rfl⟩)
      · obtain rfl : whole = false := by simpa using hwhole
        obtain rfl : ok = false := by simpa using hok
        exact { h with
          seq := fun a ha => Or.inl (hold a ha)
          writing := by
            rintro a stage heq
            cases heq
            exact ⟨hseq, hnext, by simp⟩
          rotating := by simp
          memSeq := fun e he => Or.inl (hmemSeq e he)
          memComplete := hcomplete }

/-- What the record in flight adds to `mem_`. -/
theorem mem_insertAll (h : LogsOk d p) {r : LogRecord} (hw : p.writer = .writing r .logged)
    (e : Entry) : e ∈ p.mem.insertAll r.entries ↔ e ∈ p.mem ∨ e ∈ r.entries := by
  obtain ⟨hseq, -, -⟩ := h.writing r .logged hw
  refine MemTable.mem_insertAll (fun a ha b hb hk => ?_) ?_
  · have h1 := (batchEntries_bounds ha).1
    have h2 : b.sequence ≤ p.versions.lastSequence := by
      rcases h.memSeq b hb with hle | ⟨r', hr', -⟩
      · exact hle
      · rw [hw] at hr'
        cases hr'
    have h3 : a.sequence = b.sequence := congrArg InternalKey.sequence hk
    omega
  · rw [List.Nodup, List.pairwise_map]
    refine (batchEntries_sorted r.ops r.sequence).imp fun {a b} hlt hk => ?_
    have : a.sequence = b.sequence := congrArg InternalKey.sequence hk
    omega

theorem insert (h : LogsOk d p) (hs : p.insert = some p') : LogsOk d p' := by
  unfold Process.insert at hs
  cases hw : p.writer with
  | idle => simp [hw] at hs
  | rotating n => simp [hw] at hs
  | writing r stage =>
    cases stage with
    | started => simp [hw] at hs
    | inserted => simp [hw] at hs
    | failed => simp [hw] at hs
    | logged =>
      simp only [hw, Option.some.injEq] at hs
      subst hs
      obtain ⟨hseq, hnext, hin⟩ := h.writing r .logged hw
      have hmem := hin (Or.inl rfl)
      refine { h with
        seq := fun a ha => ?_
        writing := ?_
        rotating := by simp
        memSub := fun e he => ?_
        memSeq := fun e he => ?_
        memComplete := fun a ha ha' => ?_ }
      · rcases h.seq a ha with hle | ⟨hlog, stage, -, hwr⟩
        · exact Or.inl hle
        · rw [hw] at hwr
          cases hwr
          exact Or.inr ⟨hlog, .inserted, by simp, rfl⟩
      · rintro a stage heq
        cases heq
        exact ⟨hseq, hnext, fun _ => hmem⟩
      · rcases (h.mem_insertAll hw e).mp he with he | he
        · exact h.memSub e he
        · exact ⟨_, hmem, le_rfl, Nat.lt_succ_self _, he⟩
      · rcases (h.mem_insertAll hw e).mp he with he | he
        · rcases h.memSeq e he with hle | ⟨r', hr', -⟩
          · exact Or.inl hle
          · rw [hw] at hr'
            cases hr'
        · exact Or.inr ⟨r, rfl, he⟩
      · rcases h.memComplete a ha ha' with hall | herr | ⟨stage, -, hwr⟩
        · exact Or.inl fun e he => (h.mem_insertAll hw e).mpr (Or.inl (hall e he))
        · exact Or.inr (Or.inl herr)
        · rw [hw] at hwr
          cases hwr
          exact Or.inl fun e he => (h.mem_insertAll hw e).mpr (Or.inr he)

/-- The write of `r` is over, with an error unless it reached the memtable. -/
theorem published (h : LogsOk d p) {r : LogRecord} {stage : WriteStage}
    (hw : p.writer = .writing r stage) {error : Bool}
    (herr : p.backgroundError = true ∨ stage ≠ .inserted → error = true) :
    LogsOk d { p with
      versions := { p.versions with lastSequence := r.next - 1 }
      backgroundError := error
      writer := .idle } := by
  obtain ⟨hseq, hnext, -⟩ := h.writing r stage hw
  have hle : p.versions.lastSequence ≤ r.next - 1 := by
    show _ ≤ r.sequence + r.ops.length - 1
    omega
  have hin : ∀ e ∈ r.entries, e.sequence ≤ r.next - 1 := by
    intro e he
    have := (batchEntries_bounds he).2
    show _ ≤ r.sequence + r.ops.length - 1
    omega
  refine { h with
    seq := fun a ha => Or.inl fun e he => ?_
    seq_lt := ?_
    writing := by simp
    rotating := by simp
    memSeq := fun e he => Or.inl ?_
    memComplete := fun a ha ha' => ?_
    snapshots := h.snapshots.mono hle }
  · rcases h.seq a ha with hall | ⟨-, stage', -, hwr⟩
    · exact (hall e he).trans hle
    · rw [hw] at hwr
      cases hwr
      exact hin e he
  · show r.next - 1 < kMaxSequenceNumber
    have : 0 < kMaxSequenceNumber := by decide
    omega
  · rcases h.memSeq e he with hall | ⟨r', hr', he'⟩
    · exact hall.trans hle
    · rw [hw] at hr'
      cases hr'
      exact hin e he'
  · rcases h.memComplete a ha ha' with hall | hbg | ⟨stage', hne, hwr⟩
    · exact Or.inl hall
    · exact Or.inr (Or.inl (herr (Or.inl hbg)))
    · rw [hw] at hwr
      cases hwr
      exact Or.inr (Or.inl (herr (Or.inr hne)))

theorem publish (h : LogsOk d p) (hs : p.publish = some p') : LogsOk d p' := by
  unfold Process.publish at hs
  cases hw : p.writer with
  | idle => simp [hw] at hs
  | rotating n => simp [hw] at hs
  | writing r stage =>
    cases stage with
    | started => simp [hw] at hs
    | logged => simp [hw] at hs
    | inserted =>
      simp only [hw, Option.some.injEq] at hs
      subst hs
      exact h.published hw fun herr => by simpa using herr
    | failed =>
      simp only [hw, Option.some.injEq] at hs
      subst hs
      exact h.published hw fun _ => rfl

theorem openLogFails (h : LogsOk d p) {recorded : Bool} (hs : p.openLogFails recorded = some p') :
    LogsOk d p' := by
  unfold Process.openLogFails at hs
  split at hs
  · cases hs
    exact h.frame rfl (fun n hn _ => hn) rfl rfl rfl rfl h.snapshots rfl rfl rfl le_rfl
      (fun herr => by simp [herr])
  · cases hs

theorem beginRotate (h : LogsOk d p) (hs : p.beginRotate d = some (d', p')) : LogsOk d' p' := by
  unfold Process.beginRotate at hs
  cases hw : p.writer with
  | writing r stage => simp [hw] at hs
  | rotating n => simp [hw] at hs
  | idle =>
    cases hi : p.imm with
    | some m => simp [hw, hi] at hs
    | none =>
      simp only [hw, hi, Option.ite_none_right_eq_some, Option.some.injEq, Prod.mk.injEq] at hs
      obtain ⟨⟨herr, -⟩, rfl, rfl⟩ := hs
      have hidle : ∀ r stage, p.writer ≠ .writing r stage := by simp [hw]
      have hrecords : (d.createLog p.versions.nextFileNumber).records = d.records :=
        Disk.createLog_records fun r hr => by
          have := h.le_log r hr
          have := h.log_lt
          omega
      have hbase : LogsOk (d.createLog p.versions.nextFileNumber)
          { p with versions := p.versions.takeNumber } :=
        h.frame hrecords (fun n hn _ => Finset.mem_insert_of_mem hn) rfl rfl rfl rfl h.snapshots
          rfl rfl rfl (Nat.le_succ _) id
      exact { hbase with
        seq := fun r hr => Or.inl (hbase.seq_of_idle hidle r hr)
        writing := by simp
        rotating := by
          rintro n heq
          cases heq
          refine ⟨h.log_lt, Nat.lt_succ_self _, Finset.mem_insert_self _ _, rfl, fun r hr hr' => ?_⟩
          rcases hbase.memComplete r hr hr' with hall | hbg | ⟨stage, -, hwr⟩
          · exact hall
          · exact absurd (herr.symm.trans hbg) (by simp)
          · exact absurd hwr (hidle _ _)
        memSeq := fun e he => by
          rcases hbase.memSeq e he with hle | ⟨r, hr, -⟩
          · exact Or.inl hle
          · exact absurd hr (hidle _ _)
        memComplete := fun r hr hr' => by
          rcases hbase.memComplete r hr hr' with hall | herr | ⟨stage, -, hwr⟩
          · exact Or.inl hall
          · exact Or.inr (Or.inl herr)
          · exact absurd hwr (hidle _ _)
        immNone := fun _ => h.immNone hi
        immSome := by simp }

/-- The new log takes over. -/
theorem rotate (h : LogsOk d p) {n : ℕ} (hw : p.writer = .rotating n) :
    LogsOk d { p with
      mem := Lib.OrderedSet.empty
      imm := some p.mem
      logfileNumber := n
      writer := .idle } := by
  obtain ⟨hlt, hn, hpresent, hi, hall⟩ := h.rotating n hw
  have hidle : ∀ r stage, p.writer ≠ .writing r stage := by simp [hw]
  have hL := h.immNone hi
  refine { h with
    le_log := fun r hr => (h.le_log r hr).trans hlt.le
    seq := fun r hr => Or.inl (h.seq_of_idle hidle r hr)
    writing := by simp
    rotating := by simp
    current := hpresent
    log_pos := by show 0 < n; omega
    log_le := by show p.versions.logNumber ≤ n; omega
    log_lt := hn
    immNone := by simp
    immSome := ?_
    memSub := fun e he => absurd he Lib.OrderedSet.not_mem_empty
    memSeq := fun e he => absurd he Lib.OrderedSet.not_mem_empty
    memComplete := fun r hr hr' => ?_ }
  · rintro m hm e
    cases hm
    constructor
    · intro he
      rw [hL]
      exact between_mono (h.memSub e he) hlt
    · rintro ⟨r, hr, hle, -, he⟩
      exact hall r hr (le_antisymm (h.le_log r hr) (hL ▸ hle)) e he
  · have h1 := h.le_log r hr
    have h2 : r.1 = n := hr'
    omega

/-- The rotation fails; the number of the new log is given back if it was the last
    taken, and its file is removed unless that fails too. -/
theorem rotateFails (h : LogsOk d p) {n : ℕ} (hw : p.writer = .rotating n) {logFiles : Finset ℕ}
    (hlogs : ∀ m ∈ d.logFiles, m ≠ n → m ∈ logFiles) :
    LogsOk { d with logFiles := logFiles } { p with
      versions := p.versions.reuseFileNumber n
      backgroundError := true
      writer := .idle } := by
  obtain ⟨hlt, hn, -, hi, -⟩ := h.rotating n hw
  have hidle : ∀ r stage, p.writer ≠ .writing r stage := by simp [hw]
  -- the counters but the next number stay
  obtain ⟨v, hv, hL, hprev, hseq, hnext⟩ : ∃ v, p.versions.reuseFileNumber n = v ∧
      v.logNumber = p.versions.logNumber ∧ v.prevLogNumber = p.versions.prevLogNumber ∧
      v.lastSequence = p.versions.lastSequence ∧ p.logfileNumber < v.nextFileNumber := by
    refine ⟨_, rfl, ?_⟩
    unfold VersionSet.reuseFileNumber
    split_ifs
    · exact ⟨rfl, rfl, rfl, hlt⟩
    · exact ⟨rfl, rfl, rfl, h.log_lt⟩
  rw [hv]
  have hne : ∀ m ≤ p.logfileNumber, m ∈ d.logFiles → m ∈ logFiles := fun m hm hmem =>
    hlogs m hmem (by omega)
  refine { h with
    seq := fun r hr => Or.inl (hseq ▸ h.seq_of_idle hidle r hr)
    seq_lt := hseq ▸ h.seq_lt
    writing := by simp
    rotating := by simp
    present := fun r hr hle => hne _ (h.le_log r hr) (h.present r hr (hL ▸ hle))
    current := hne _ le_rfl h.current
    log_le := hL ▸ h.log_le
    log_lt := hnext
    prevLog := hprev.trans h.prevLog
    immNone := fun _ => hL.trans (h.immNone hi)
    immSome := fun m hm => by simp [hi] at hm
    memSeq := fun e he => Or.inl ?_
    memComplete := fun r hr hr' => Or.inr (Or.inl rfl)
    snapshots := hseq ▸ h.snapshots }
  rcases h.memSeq e he with hle | ⟨r, hr, -⟩
  · exact hseq ▸ hle
  · exact absurd hr (hidle _ _)

theorem endRotate (h : LogsOk d p) {ok removed : Bool}
    (hs : p.endRotate d ok removed = some (d', p')) : LogsOk d' p' := by
  unfold Process.endRotate at hs
  cases hw : p.writer with
  | idle => simp [hw] at hs
  | writing r stage => simp [hw] at hs
  | rotating n =>
    simp only [hw] at hs
    cases ok with
    | true =>
      cases hs
      exact h.rotate hw
    | false =>
      cases removed with
      | true =>
        cases hs
        exact h.rotateFails hw fun m hm hne => Finset.mem_erase.mpr ⟨hne, hm⟩
      | false =>
        cases hs
        exact h.rotateFails hw fun m hm _ => hm

/-! ## Snapshots and installs -/

theorem getSnapshot (h : LogsOk d p) {address : ℕ} (hs : p.getSnapshot address = some p') :
    LogsOk d p' := by
  simp only [Process.getSnapshot, Option.ite_none_left_eq_some, Option.some.injEq] at hs
  obtain ⟨ha, rfl⟩ := hs
  exact h.frame rfl (fun n hn _ => hn) rfl rfl rfl rfl (h.snapshots.getSnapshot ha) rfl rfl rfl
    le_rfl id

theorem releaseSnapshot (h : LogsOk d p) {address : ℕ} (hs : p.releaseSnapshot address = some p') :
    LogsOk d p' := by
  obtain ⟨snapshots, hr, rfl⟩ := Option.map_eq_some_iff.mp hs
  exact h.frame rfl (fun n hn _ => hn) rfl rfl rfl rfl (h.snapshots.releaseSnapshot hr) rfl rfl rfl
    le_rfl id

/-- The version of a flush is installed: it stands for the logs up to the current one. -/
theorem flushed (h : LogsOk d p) {m : MemTable} (hi : p.imm = some m)
    (hrecords : d'.records = d.records)
    (hlogs : ∀ n ∈ d.logFiles, p.logfileNumber ≤ n → n ∈ d'.logFiles)
    (hmem : p'.mem = p.mem) (himm : p'.imm = none)
    (hlog : p'.logfileNumber = p.logfileNumber) (hwriter : p'.writer = p.writer)
    (hsnap : p'.snapshots = p.snapshots)
    (hL : p'.versions.logNumber = p.logfileNumber)
    (hprev : p'.versions.prevLogNumber = 0)
    (hseq : p'.versions.lastSequence = p.versions.lastSequence)
    (hnext : p.versions.nextFileNumber ≤ p'.versions.nextFileNumber)
    (herr : p.backgroundError = true → p'.backgroundError = true) : LogsOk d' p' := by
  have hrot : ∀ n, p.writer ≠ .rotating n := fun n hn => by
    have := (h.rotating n hn).2.2.2.1
    simp [hi] at this
  constructor
  · exact hrecords ▸ h.ordered
  · exact hrecords ▸ h.wellFormed
  · rw [hrecords, hlog]
    exact h.le_log
  · rw [hrecords, hlog, hseq, hwriter]
    exact h.seq
  · exact hseq ▸ h.seq_lt
  · rw [hrecords, hlog, hseq, hwriter]
    exact h.writing
  · rw [hwriter]
    exact fun n hn => absurd hn (hrot n)
  · rw [hrecords, hL]
    exact fun r hr hle => hlogs _ (h.present r hr (h.log_le.trans hle)) hle
  · rw [hlog]
    exact hlogs _ h.current le_rfl
  · exact hlog ▸ h.log_pos
  · rw [hL, hlog]
  · have := h.log_lt
    rw [hlog]
    omega
  · exact hprev
  · intro _
    rw [hL, hlog]
  · simp [himm]
  · rw [hmem, hlog, hrecords]
    exact h.memSub
  · rw [hmem, hseq, hwriter]
    exact h.memSeq
  · rw [hmem, hlog, hrecords, hwriter]
    exact fun r hr hr' => (h.memComplete r hr hr').imp id (Or.imp herr id)
  · rw [hsnap, hseq]
    exact h.snapshots

end LogsOk

end Ambar
