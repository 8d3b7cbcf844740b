import Ambar.Engine.Recovery

/-!
# File numbers

`new_file_number` hands out the counter, on two threads and in recovery; a failed
rotation gives its number back, and an open reloads the counter from the manifest and
moves it past the logs it replays (`src/version_set.hpp`, lines 172–185). Every file
is opened with truncation, so a number that is in use must not come out again.

* `Engine.handouts`: the numbers a step takes, and what for.
* `JobEffect`: what a step of the background thread does to the numbers.
* `Engine.Counted`: the counter is above every table that a version ever held.
* `newFileNumber_free`: in every run the numbers handed out are free, and no step
  destroys a table in use or the records of a log.
-/

namespace Ambar

/-! ## The numbers a step takes -/

/-- A number handed out, and the kind of file it names. -/
inductive Handout where
  | table (number : ℕ)
  | log (number : ℕ)
  | manifest (number : ℕ)
deriving DecidableEq, Repr

/-- The calls of `new_file_number` in a step of a process. -/
def Process.handouts (opts : Options) (p : Process) : Action → List Handout
  | .openLogFails _ => if p.backgroundError then [] else [.log p.versions.nextFileNumber]
  | .beginRotate => [.log p.versions.nextFileNumber]
  | .background _ => if p.imm.isSome then [.table p.versions.nextFileNumber] else []
  | .nestedFlush => [.table p.versions.nextFileNumber]
  | .compactEntry =>
    match p.job with
    | .working work =>
      match work.rest with
      | [] => []
      | e :: _ =>
        if (Ambar.compactEntry opts work.compaction work.smallestSnapshot p.versions.nextFileNumber
          work.state e).2 then [.table p.versions.nextFileNumber] else []
    | _ => []
  | .jobFails _ took _ =>
    match p.job with
    | .working _ => if took then [.table p.versions.nextFileNumber] else []
    | _ => []
  | _ => []

/-- The numbers of an open: the tables of the logs, the new log and the new manifest. -/
def Recovery.handouts (r : Recovery) : List Handout :=
  r.written.map (fun w => .table w.1) ++ [.log r.next, .manifest r.versions.manifestFileNumber]

/-- The numbers a step takes. -/
def Engine.handouts (opts : Options) (e : Engine) (a : Action) : List Handout :=
  match e.process, a with
  | some p, a => p.handouts opts a
  | none, .open others full _ =>
    match e.disk.recover others full with
    | .error _ => []
    | .ok r => r.handouts
  | none, _ => []

/-- The number is that of no file in use: of no table that a version ever held, that the
    manifest in force names or that is being written; of no log in the directory; not of
    the manifest that CURRENT names. -/
def Handout.Free (e : Engine) : Handout → Prop
  | .table n => n ∉ e.installed ∧ n ∉ namedNumbers e.disk.manifest ∧
      ∀ p, e.process = some p → n ∉ liveFiles p.versions.files ∧ n ∉ p.job.reserved
  | .log n => n ∉ e.disk.logFiles
  | .manifest n => n ≠ e.disk.manifestNumber

/-! ## What the background thread does to the numbers -/

/-- The edit in flight. -/
def Job.logging : Job → Option Logging
  | .flushing l _ => some l
  | .moving l => some l
  | .installing l _ => some l
  | _ => none

/-- Tables are written only under reserved numbers and the next one; the manifest grows
    by the edit in flight only; an edit records the counter as it is when the edit is
    begun; a version is installed once the manifest names it. -/
structure JobEffect (d : Disk) (p : Process) (d' : Disk) (p' : Process) : Prop where
  records : d'.records = d.records
  logFiles : ∀ n ∈ d'.logFiles, n ∈ d.logFiles
  tables : ∀ n, n ∉ p.job.reserved → n ≠ p.versions.nextFileNumber → d'.tables n = d.tables n
  writer : p'.writer = p.writer
  next_le : p.versions.nextFileNumber ≤ p'.versions.nextFileNumber
  backgroundError : p.backgroundError = true → p'.backgroundError = true
  reserved : ∀ n ∈ p'.job.reserved, n ∈ p.job.reserved ∨ n = p.versions.nextFileNumber
  manifest : d'.manifest = d.manifest ∨
    ∃ l, p.job.logging = some l ∧ d'.manifest = d.manifest ++ [l.edit]
  logging : ∀ l', p'.job.logging = some l' →
    (∃ l, p.job.logging = some l ∧ l'.edit = l.edit) ∨
      l'.edit.nextFileNumber = some p.versions.nextFileNumber
  files : p'.versions.files = p.versions.files ∨
    p'.job.logging = none ∧ ∃ log, d'.Names d'.manifest p'.versions.files log

variable {opts : Options} {d d' : Disk} {p p' : Process}

theorem removeObsoleteFiles_logFiles_subset {spared : Spared} {n : ℕ}
    (hn : n ∈ (removeObsoleteFiles d p spared).logFiles) : n ∈ d.logFiles := by
  unfold removeObsoleteFiles at hn
  split_ifs at hn
  · exact hn
  · exact Finset.mem_of_mem_filter n hn

namespace JobEffect

/-- A step that only changes the process, and installs nothing. -/
theorem of_process (hwriter : p'.writer = p.writer)
    (hnext : p.versions.nextFileNumber ≤ p'.versions.nextFileNumber)
    (hfiles : p'.versions.files = p.versions.files)
    (herr : p.backgroundError = true → p'.backgroundError = true)
    (hreserved : ∀ n ∈ p'.job.reserved, n ∈ p.job.reserved ∨ n = p.versions.nextFileNumber)
    (hlogging : ∀ l, p'.job.logging = some l →
      l.edit.nextFileNumber = some p.versions.nextFileNumber) : JobEffect d p d p' where
  records := rfl
  logFiles := fun _ hn => hn
  tables := fun _ _ _ => rfl
  writer := hwriter
  next_le := hnext
  backgroundError := herr
  reserved := hreserved
  manifest := Or.inl rfl
  logging := fun l hl => Or.inr (hlogging l hl)
  files := Or.inl hfiles

/-- A failed call of `log_and_apply`. -/
theorem of_failed {l : Logging} (hl : p.job.logging = some l) (whole : Bool)
    (hrecords : d'.records = d.records) (hlogFiles : ∀ n ∈ d'.logFiles, n ∈ d.logFiles)
    (htables : d'.tables = d.tables)
    (hmanifest : d'.manifest = (Process.failedManifest d l whole).manifest)
    (hwriter : p'.writer = p.writer) (hversions : p'.versions = p.versions)
    (herr : p.backgroundError = true → p'.backgroundError = true) (hjob : p'.job = .idle) :
    JobEffect d p d' p' where
  records := hrecords
  logFiles := hlogFiles
  tables := fun n _ _ => by rw [htables]
  writer := hwriter
  next_le := by rw [hversions]
  backgroundError := herr
  reserved := fun n hn => by
    rw [hjob] at hn
    cases hn
  manifest := by
    rw [hmanifest]
    unfold Process.failedManifest
    split_ifs
    · exact Or.inr ⟨l, hl, rfl⟩
    · exact Or.inl rfl
  logging := fun l' hl' => by
    rw [hjob] at hl'
    cases hl'
  files := Or.inl (by rw [hversions])

/-- The install of a version whose edit the manifest has. -/
theorem of_installed {l : Logging} {log : ℕ} {spared : Spared} (hl : LoggingOk d p l log)
    (happ : l.appended = true) (hwriter : p'.writer = p.writer)
    (hversions : p'.versions = p.versions.install l.edit l.files)
    (herr : p'.backgroundError = p.backgroundError)
    (hreserved : ∀ n ∈ p'.job.reserved, n ∈ p.job.reserved)
    (hlogging : p'.job.logging = none) :
    JobEffect d p (removeObsoleteFiles d p' spared) p' where
  records := by simp
  logFiles := fun n hn => removeObsoleteFiles_logFiles_subset hn
  tables := fun n _ _ => by simp
  writer := hwriter
  next_le := by
    rw [hversions]
    exact le_rfl
  backgroundError := fun he => herr.trans he
  reserved := fun n hn => Or.inl (hreserved n hn)
  manifest := Or.inl (by simp)
  logging := fun l' hl' => by
    rw [hlogging] at hl'
    cases hl'
  files := by
    refine Or.inr ⟨hlogging, log, ?_⟩
    rw [hversions, removeObsoleteFiles_manifest]
    exact (hl.after happ).mono (by simp)

theorem flushFails (number : ℕ) (resume : Option Work) (hrecords : d'.records = d.records)
    (hlogFiles : ∀ n ∈ d'.logFiles, n ∈ d.logFiles) (hmanifest : d'.manifest = d.manifest)
    (htables : ∀ n, n ∉ p.job.reserved → d'.tables n = d.tables n) :
    JobEffect d p d'
      ({ p with pendingOutputs := p.pendingOutputs.erase number }.flushFails resume) := by
  obtain ⟨pending, heq⟩ :=
    flushFails_eq { p with pendingOutputs := p.pendingOutputs.erase number } resume
  rw [heq]
  exact
    { records := hrecords
      logFiles := hlogFiles
      tables := fun n hn _ => htables n hn
      writer := rfl
      next_le := le_rfl
      backgroundError := fun _ => rfl
      reserved := fun n hn => by cases hn
      manifest := Or.inl hmanifest
      logging := fun l hl => by cases hl
      files := Or.inl rfl }

end JobEffect

theorem buildTable_frame (d : Disk) (number : ℕ) (entries : List Entry) :
    let d' := if entries = [] then d else d.writeTable number entries
    d'.records = d.records ∧ d'.manifest = d.manifest ∧ d'.logFiles = d.logFiles ∧
      ∀ n, n ≠ number → d'.tables n = d.tables n := by
  intro d'
  by_cases h : entries = []
  · have : d' = d := if_pos h
    rw [this]
    exact ⟨rfl, rfl, rfl, fun n _ => rfl⟩
  · have : d' = d.writeTable number entries := if_neg h
    rw [this]
    exact ⟨rfl, rfl, rfl, fun n hn => Function.update_of_ne hn _ _⟩

theorem ProcessOk.jobEffect (h : ProcessOk d p) {a : Action} (hs : JobStep opts d p a d' p') :
    JobEffect d p d' p' := by
  have hj := h.books.job
  cases hs with
  | nothing manual =>
    refine ⟨rfl, fun n hn => hn, fun n _ _ => rfl, rfl, le_rfl, id, fun n hn => Or.inl hn, Or.inl rfl,
      fun l hl => Or.inl ⟨l, hl, rfl⟩, Or.inl rfl⟩
  | flush manual imm hjob herr hshut himm =>
    refine .of_process rfl (Nat.le_succ _) rfl id (fun n hn => ?_) fun l hl => by cases hl
    exact Or.inr (List.mem_singleton.mp hn)
  | manual request c hjob herr hshut hlevel hc =>
    exact .of_process rfl le_rfl rfl id (fun n hn => by cases hn) fun l hl => by cases hl
  | move c f rest hjob herr hshut hc hmove hf =>
    refine .of_process rfl le_rfl rfl id (fun n hn => by cases hn) fun l hl => ?_
    cases hl
    rfl
  | automatic c hjob herr hshut hc =>
    exact .of_process rfl le_rfl rfl id (fun n hn => by cases hn) fun l hl => by cases hl
  | nested work imm hjob himm hshut =>
    refine .of_process rfl (Nat.le_succ _) rfl id (fun n hn => ?_) fun l hl => by cases hl
    rcases List.mem_cons.mp hn with hn | hn
    · exact Or.inr hn
    · rw [hjob]
      exact Or.inl hn
  | built number resume imm hjob himm hshut =>
    obtain ⟨h1, h2, h3, h4⟩ := buildTable_frame d number imm.toList
    exact
      { records := h1
        logFiles := fun n hn => h3 ▸ hn
        tables := fun n hn _ => h4 n (by
          rw [hjob] at hn
          exact fun heq => hn (heq ▸ List.mem_cons_self))
        writer := rfl
        next_le := le_rfl
        backgroundError := id
        reserved := fun n hn => by
          rw [hjob]
          rcases List.mem_append.mp hn with hn | hn
          · obtain ⟨q, hq, rfl⟩ := List.mem_map.mp hn
            rw [(flushEdit_newFiles hq).2.1]
            exact Or.inl List.mem_cons_self
          · exact Or.inl (List.mem_cons_of_mem _ hn)
        manifest := Or.inl h2
        logging := fun l hl => by
          cases hl
          exact Or.inr rfl
        files := Or.inl rfl }
  | builtLate number resume imm hjob himm hshut =>
    obtain ⟨h1, h2, h3, h4⟩ := buildTable_frame d number imm.toList
    refine .flushFails number resume h1 (fun n hn => h3 ▸ hn) h2 fun n hn => h4 n ?_
    rw [hjob] at hn
    exact fun heq => hn (heq ▸ List.mem_cons_self)
  | entry work e rest next hjob hrest hnext =>
    have hnumbers : next.1.all.map (·.number) =
        work.numbers ++ if next.2 then [p.versions.nextFileNumber] else [] := by
      rw [← hnext]
      exact compactEntry_numbers opts work.compaction work.smallestSnapshot _ work.state e
    have hmem : ∀ n ∈ next.1.all.map (·.number),
        n ∈ p.job.reserved ∨ n = p.versions.nextFileNumber := by
      intro n hn
      rw [hnumbers] at hn
      rcases List.mem_append.mp hn with hn | hn
      · rw [hjob]
        exact Or.inl hn
      · split_ifs at hn
        · exact Or.inr (List.mem_singleton.mp hn)
        · cases hn
    exact
      { records := rfl
        logFiles := fun n hn => hn
        tables := fun n hn hne => writeOutputs_of_ne fun o ho heq => by
          rcases hmem o.number (List.mem_map_of_mem ho) with hr | hr
          · exact hn (heq ▸ hr)
          · exact hne (heq ▸ hr)
        writer := rfl
        next_le := by
          show _ ≤ (if next.2 then p.versions.takeNumber else p.versions).nextFileNumber
          split_ifs
          · exact Nat.le_succ _
          · exact le_rfl
        backgroundError := id
        reserved := hmem
        manifest := Or.inl rfl
        logging := fun l hl => by cases hl
        files := by
          show (if next.2 then p.versions.takeNumber else p.versions).files = _ ∨ _
          split_ifs <;> exact Or.inl rfl }
  | finish work hjob hrest =>
    refine .of_process rfl le_rfl rfl id (fun n hn => ?_) fun l hl => ?_
    · have hn' : n ∈ ({ work with state := work.state.finish } : Work).numbers := hn
      rw [Work.numbers, CompactionState.finish_all] at hn'
      rw [hjob]
      exact Or.inl hn'
    · cases hl
      rfl
  | append l job happ hjob hkind =>
    have hlogging : ∀ l', (job l').logging = some l' := by
      intro l'
      rcases hkind with ⟨resume, rfl⟩ | rfl | ⟨work, rfl⟩ <;> rfl
    exact
      { records := rfl
        logFiles := fun n hn => hn
        tables := fun n _ _ => rfl
        writer := rfl
        next_le := le_rfl
        backgroundError := id
        reserved := fun n hn => by
          rw [hjob]
          rcases hkind with ⟨resume, rfl⟩ | rfl | ⟨work, rfl⟩
          · exact Or.inl (List.mem_append_right _ hn)
          · cases hn
          · cases hn
        manifest := Or.inr ⟨l, hjob ▸ hlogging l, rfl⟩
        logging := fun l' hl' => by
          rw [hlogging] at hl'
          cases hl'
          exact Or.inl ⟨l, hjob ▸ hlogging l, rfl⟩
        files := Or.inl rfl }
  | syncFlush l resume spared _ hjob happ hq =>
    rw [hjob] at hj
    refine .of_installed hj.2 happ (by rw [hq]) (by rw [hq]) (by rw [hq]) (fun n hn => ?_) ?_
    · rw [hq] at hn
      rw [hjob]
      cases resume with
      | none => cases hn
      | some work => exact List.mem_append_right _ hn
    · rw [hq]
      cases resume <;> rfl
  | syncMove l spared _ hjob happ hq =>
    rw [hjob] at hj
    refine .of_installed hj happ (by rw [hq]) (by rw [hq]) (by rw [hq]) (fun n hn => ?_) (by rw [hq]; rfl)
    rw [hq] at hn
    cases hn
  | syncInstall l work spared _ hjob happ hq =>
    rw [hjob] at hj
    refine .of_installed hj happ (by rw [hq]; rfl) (by rw [hq]; rfl) (by rw [hq]; rfl) (fun n hn => ?_)
      (by rw [hq]; rfl)
    rw [hq] at hn
    cases hn
  | failBuild number resume whole took spared hjob =>
    exact .flushFails number resume rfl (fun n hn => hn) rfl fun n _ => rfl
  | failFlush l resume whole took spared hjob =>
    obtain ⟨pending, heq⟩ := flushFails_eq p resume
    rw [heq]
    exact .of_failed (by rw [hjob]; rfl) whole (by simp) (by simp) (by simp) rfl rfl rfl
      (fun _ => rfl) rfl
  | failMove l whole took spared _ hjob hq =>
    refine .of_failed (by rw [hjob]; rfl) whole (by simp) (fun n hn => ?_) (by simp) (by simp) (by rw [hq])
      (by rw [hq]) (fun he => by simp [hq, he]) (by rw [hq])
    simpa using removeObsoleteFiles_logFiles_subset hn
  | failWork work whole took spared _ hjob hq =>
    exact
      { records := by simp
        logFiles := fun n hn => removeObsoleteFiles_logFiles_subset hn
        tables := fun n _ _ => by simp
        writer := by rw [hq]; rfl
        next_le := by
          rw [hq]
          cases took with
          | true => exact Nat.le_succ _
          | false => exact le_rfl
        backgroundError := fun he => by simp [hq, he]
        reserved := fun n hn => by
          rw [hq] at hn
          cases hn
        manifest := Or.inl (by simp)
        logging := fun l hl => by
          rw [hq] at hl
          cases hl
        files := by
          rw [hq]
          cases took <;> exact Or.inl rfl }
  | failInstall l work whole took spared _ hjob hq =>
    refine .of_failed (by rw [hjob]; rfl) whole (by simp) (fun n hn => ?_) (by simp) (by simp)
      (by rw [hq]; rfl) (by rw [hq]; rfl) (fun he => by simp [hq, he]) (by rw [hq]; rfl)
    simpa using removeObsoleteFiles_logFiles_subset hn

/-! ## The counter -/

/-- The counter is above the tables that versions have held, now and in what an edit in
    flight records of it; no table under construction has such a number. -/
structure Counted (d : Disk) (installed : Finset ℕ) (p : Process) : Prop where
  named : ∀ next, (replayEdits d.manifest).nextFile = some next → ∀ n ∈ installed, n < next
  taken : ∀ n ∈ installed, p.Taken n
  unreserved : ∀ n ∈ p.job.reserved, n ∉ installed
  logs : LogsBounded d p
  logging : ∀ l, p.job.logging = some l → ∀ next, l.edit.nextFileNumber = some next →
    ∀ n ∈ installed, n < next
  current : ∀ n ∈ liveFiles p.versions.files, n ∈ installed

theorem mem_liveFiles {files : Levels} {n : ℕ} (hn : n ∈ liveFiles files) :
    ∃ level, ∃ f ∈ files level, f.number = n := by
  obtain ⟨level, -, hn⟩ := List.mem_flatMap.mp hn
  obtain ⟨f, hf, rfl⟩ := List.mem_map.mp hn
  exact ⟨level, f, hf, rfl⟩

theorem Reads.mem_namedNumbers {edits : List VersionEdit} {files : Levels} {log next seq n : ℕ}
    (h : Reads edits files log next seq) (hn : n ∈ liveFiles files) : n ∈ namedNumbers edits := by
  obtain ⟨level, f, hf, rfl⟩ := mem_liveFiles hn
  exact List.mem_map_of_mem (h.listed.mem_allPairs hf)

theorem Reads.namedNumbers_lt {edits : List VersionEdit} {files : Levels} {log next seq n : ℕ}
    (h : Reads edits files log next seq) (hn : n ∈ namedNumbers edits) : n < next := by
  obtain ⟨q, hq, rfl⟩ := List.mem_map.mp hn
  exact h.lt_next q hq

section

variable {installed : Finset ℕ}

/-- The writer and the readers. -/
theorem Counted.quiet (h : Counted d installed p) (hq : Quiet d p d' p') :
    Counted d' (installed ∪ (liveFiles p'.versions.files).toFinset) p' := by
  have hsame : installed ∪ (liveFiles p'.versions.files).toFinset = installed := by
    rw [hq.files]
    exact Finset.union_eq_left.mpr fun n hn => h.current n (List.mem_toFinset.mp hn)
  rw [hsame]
  exact
    { named := hq.manifest ▸ h.named
      taken := fun n hn => hq.taken n (h.taken n hn)
      unreserved := hq.job ▸ h.unreserved
      logs := hq.bounded h.logs
      logging := hq.job ▸ h.logging
      current := hq.files ▸ h.current }

/-- The background thread. -/
theorem Counted.jobEffect (h : Counted d installed p) (hok' : ProcessOk d' p')
    (he : JobEffect d p d' p') :
    Counted d' (installed ∪ (liveFiles p'.versions.files).toFinset) p' := by
  have hmem : ∀ n ∈ installed ∪ (liveFiles p'.versions.files).toFinset,
      n ∈ installed ∨ n ∈ namedNumbers d'.manifest ∧ p'.job.logging = none := by
    intro n hn
    rcases Finset.mem_union.mp hn with hn | hn
    · exact Or.inl hn
    · have hlive := List.mem_toFinset.mp hn
      rcases he.files with hf | ⟨hl, log, next, seq, hr, -, -⟩
      · exact Or.inl (h.current n (hf ▸ hlive))
      · exact Or.inr ⟨hr.mem_namedNumbers hlive, hl⟩
  have htaken : ∀ n, p.Taken n → p'.Taken n := fun n hn =>
    ⟨hn.1.trans_le he.next_le, he.writer ▸ hn.2⟩
  refine
    { named := fun next hnext n hn => ?_, taken := fun n hn => ?_, unreserved := fun n hn hi => ?_,
      logs := ?_, logging := fun l' hl' next hnext n hn => ?_,
      current := fun n hn => Finset.mem_union_right _ (List.mem_toFinset.mpr hn) }
  · rcases hmem n hn with hn | ⟨hn, -⟩
    · rcases he.manifest with hm | ⟨l, hl, hm⟩
      · exact h.named next (hm ▸ hnext) n hn
      · -- the edit appended last says what the counter was
        rw [hm, replayEdits, List.foldl_append] at hnext
        rcases Option.or_eq_some_iff.mp hnext with hnext | ⟨-, hnext⟩
        · exact h.logging l hl next hnext n hn
        · exact h.named next hnext n hn
    · obtain ⟨files, log, ⟨next', seq, hr, -, -⟩, -, -⟩ := hok'.books.names
      have : next' = next := Option.some.inj (hr.nextFile.symm.trans hnext)
      exact this ▸ hr.namedNumbers_lt hn
  · rcases hmem n hn with hn | ⟨hn, -⟩
    · exact htaken n (h.taken n hn)
    · exact hok'.books.named n hn
  · rcases hmem n hi with hi | ⟨hi, -⟩
    · rcases he.reserved n hn with hr | rfl
      · exact h.unreserved n hr hi
      · exact absurd (h.taken _ hi).1 (lt_irrefl _)
    · exact (hok'.books.reserved n hn).2 hi
  · exact h.logs.imp he.backgroundError fun hlt n hn => (hlt n (he.logFiles n hn)).trans_le he.next_le
  · rcases hmem n hn with hn | ⟨-, hnone⟩
    · rcases he.logging l' hl' with ⟨l, hl, heq⟩ | heq
      · exact h.logging l hl next (heq ▸ hnext) n hn
      · have : p.versions.nextFileNumber = next := Option.some.inj (heq.symm.trans hnext)
        exact this ▸ (h.taken n hn).1
    · rw [hnone] at hl'
      cases hl'

end

/-- The counter of a database, with or without a process. -/
def Engine.Counted (e : Engine) : Prop :=
  match e.process with
  | none => ∀ next, (replayEdits e.disk.manifest).nextFile = some next → ∀ n ∈ e.installed, n < next
  | some p => Ambar.Counted e.disk e.installed p

theorem engineCounted_created : Engine.created.Counted := by
  intro next _ n hn
  simp [Engine.created] at hn

section

variable {e e' : Engine} {a : Action}

theorem Engine.Ok.process (h : e.Ok) {p : Process} (hp : e.process = some p) :
    ProcessOk e.disk p := by
  unfold Engine.Ok at h
  rwa [hp] at h

theorem Engine.Ok.none (h : e.Ok) (hp : e.process = .none) :
    ∃ files log next seq, DiskOk e.disk files log next seq := by
  unfold Engine.Ok at h
  rwa [hp] at h

theorem Engine.Counted.process (h : e.Counted) {p : Process} (hp : e.process = some p) :
    Ambar.Counted e.disk e.installed p := by
  unfold Engine.Counted at h
  rwa [hp] at h

theorem Engine.Counted.none (h : e.Counted) (hp : e.process = .none) :
    ∀ next, (replayEdits e.disk.manifest).nextFile = some next → ∀ n ∈ e.installed, n < next := by
  unfold Engine.Counted at h
  rwa [hp] at h

/-- **Every step keeps the counter above the tables.** -/
theorem Engine.Counted.step (h : e.Counted) (hok : e.Ok) (hs : e.step opts a = some e') :
    e'.Counted := by
  have hok' := hok.step hs
  cases Engine.step_steps hs with
  | crash p hp => exact (h.process hp).named
  | process p _ d' p' hp hs' =>
    rcases Process.step_cases (hok.process hp).logs hs' with ⟨hq, -⟩ | hj
    · exact (h.process hp).quiet hq
    · exact (h.process hp).jobEffect hok' ((hok.process hp).jobEffect hj)
  | stopped others full tables logCreated r hp hr =>
    have hnone := h.none hp
    cases logCreated <;> exact hnone
  | installed others full r hp hr =>
    obtain ⟨files, log, next, seq, hd⟩ := hok.none hp
    have hr' := hd.recover hr
    intro next' hnext' n hn
    have hreads : Reads (r.install opts e.disk).manifest _ r.next (r.next + 1) _ :=
      hr'.reads_install hd.reads
    have h1 : r.next + 1 = next' := Option.some.inj (hreads.nextFile.symm.trans hnext')
    have h2 := h.none hp next hd.reads.nextFile n hn
    have h3 := hr'.next_lt
    have h4 := hr'.next_le
    omega
  | ok others full spared r hp hr =>
    obtain ⟨files, log, next, seq, hd⟩ := hok.none hp
    have hr' := hd.recover hr
    have hreads : Reads (r.install opts e.disk).manifest (r.process opts).versions.files r.next
        (r.next + 1) r.lastSequence := hr'.reads_install hd.reads
    have hlt : ∀ n ∈ e.installed ∪ (liveFiles (r.process opts).versions.files).toFinset,
        n < r.next + 1 := by
      intro n hn
      rcases Finset.mem_union.mp hn with hn | hn
      · have h2 := h.none hp next hd.reads.nextFile n hn
        have h3 := hr'.next_lt
        have h4 := hr'.next_le
        omega
      · exact hreads.namedNumbers_lt (hreads.mem_namedNumbers (List.mem_toFinset.mp hn))
    exact
      { named := fun next' hnext' n hn => by
          have hm : (removeObsoleteFiles (r.install opts e.disk) (r.process opts) spared).manifest =
            (r.install opts e.disk).manifest := removeObsoleteFiles_manifest _ _ _
          have hnext : (replayEdits (r.install opts e.disk).manifest).nextFile = some next' :=
            hm ▸ hnext'
          have : r.next + 1 = next' := Option.some.inj (hreads.nextFile.symm.trans hnext)
          exact this ▸ hlt n hn
        taken := fun n hn => ⟨hlt n hn, fun hw => by cases hw⟩
        unreserved := fun n hn => by cases hn
        logs := Or.inr fun n hn => by
          rcases Finset.mem_insert.mp (removeObsoleteFiles_logFiles_subset hn) with rfl | hn
          · exact Nat.lt_succ_self _
          · exact (hr'.logs_lt n hn).trans (Nat.lt_succ_self _)
        logging := fun l hl => by cases hl
        current := fun n hn => Finset.mem_union_right _ (List.mem_toFinset.mpr hn) }

theorem engineCounted_of_run {acts : List Action}
    (h : Lib.run (Engine.step opts) Engine.created acts = some e) : e.Ok ∧ e.Counted :=
  @Lib.run_invariant _ _ (Engine.step opts) (fun e : Engine => e.Ok ∧ e.Counted)
    (fun _ _ _ h hs => ⟨h.1.step hs, h.2.step h.1 hs⟩) _ _ _ ⟨engineOk_created, engineCounted_created⟩ h

/-! ## The numbers are free -/

/-- In a process the counter is free for a table. -/
theorem handout_table_free (hok : e.Ok) (h : e.Counted) {p : Process} (hp : e.process = some p) :
    (Handout.table p.versions.nextFileNumber).Free e := by
  obtain ⟨-, hnamed, hreserved⟩ := (hok.process hp).next_free
  have hinstalled : p.versions.nextFileNumber ∉ e.installed := fun hn =>
    absurd ((h.process hp).taken _ hn).1 (lt_irrefl _)
  refine ⟨hinstalled, hnamed, fun q hq => ?_⟩
  cases hp.symm.trans hq
  exact ⟨fun hn => hinstalled ((h.process hp).current _ hn), hreserved⟩

/-- While no error is recorded the counter is free for a log. -/
theorem handout_log_free (h : e.Counted) {p : Process} (hp : e.process = some p)
    (herr : p.backgroundError = false) : (Handout.log p.versions.nextFileNumber).Free e := by
  intro hn
  rcases (h.process hp).logs with hb | hlt
  · rw [herr] at hb
    cases hb
  · exact absurd (hlt _ hn) (lt_irrefl _)

theorem handouts_free_process (hok : e.Ok) (h : e.Counted) {p : Process} (hp : e.process = some p)
    {s : Disk × Process} (hs : p.step opts e.disk a = some s) :
    ∀ o ∈ p.handouts opts a, o.Free e := by
  have htable := handout_table_free hok h hp
  have hone : ∀ o ∈ [Handout.table p.versions.nextFileNumber], o.Free e := fun o ho =>
    List.mem_singleton.mp ho ▸ htable
  intro o ho
  unfold Process.handouts at ho
  cases a with
  | openLogFails recorded =>
    simp only at ho
    split_ifs at ho with herr
    · cases ho
    · rw [List.mem_singleton.mp ho]
      exact handout_log_free h hp (by simpa using herr)
  | beginRotate =>
    rw [List.mem_singleton.mp ho]
    refine handout_log_free h hp ?_
    have hb : p.beginRotate e.disk = some s := hs
    unfold Process.beginRotate at hb
    split at hb
    · exact (Option.ite_none_right_eq_some.mp hb).1.1
    · cases hb
  | background manual =>
    simp only at ho
    split_ifs at ho
    · exact hone o ho
    · cases ho
  | nestedFlush => exact hone o ho
  | compactEntry =>
    simp only at ho
    split at ho
    · split at ho
      · cases ho
      · split_ifs at ho
        · exact hone o ho
        · cases ho
    · cases ho
  | jobFails whole took spared =>
    simp only at ho
    split at ho
    · split_ifs at ho
      · exact hone o ho
      · cases ho
    · cases ho
  | _ => cases ho

theorem handouts_free_open (hok : e.Ok) (h : e.Counted) (hp : e.process = none)
    {others : Finset ℕ} {full : ℕ → ℕ → Bool} {r : Recovery}
    (hr : e.disk.recover others full = .ok r) : ∀ o ∈ r.handouts, o.Free e := by
  obtain ⟨files, log, next, seq, hd⟩ := hok.none hp
  have hr' := hd.recover hr
  intro o ho
  rcases List.mem_append.mp ho with ho | ho
  · obtain ⟨w, hw, rfl⟩ := List.mem_map.mp ho
    have h1 := (hr'.written w hw).1
    have h2 := hr'.next_lt
    refine ⟨fun hn => ?_, fun hn => ?_, fun p hp' => ?_⟩
    · have := h.none hp next hd.reads.nextFile _ hn
      omega
    · have := hd.reads.namedNumbers_lt hn
      omega
    · rw [hp] at hp'
      cases hp'
  · rcases List.mem_cons.mp ho with rfl | ho
    · exact fun hn => absurd (hr'.logs_lt _ hn) (lt_irrefl _)
    · rw [List.mem_singleton.mp ho]
      exact hr'.manifest_lt.ne'

theorem Engine.handouts_free (hok : e.Ok) (h : e.Counted) (hs : e.step opts a = some e') :
    ∀ o ∈ e.handouts opts a, o.Free e := by
  intro o ho
  unfold Engine.handouts at ho
  cases Engine.step_steps hs with
  | crash p hp =>
    rw [hp] at ho
    cases ho
  | process p _ d' p' hp hs' =>
    rw [hp] at ho
    exact handouts_free_process hok h hp hs' o ho
  | stopped others full tables logCreated r hp hr =>
    rw [hp] at ho
    simp only [hr] at ho
    exact handouts_free_open hok h hp hr o ho
  | installed others full r hp hr =>
    rw [hp] at ho
    simp only [hr] at ho
    exact handouts_free_open hok h hp hr o ho
  | ok others full spared r hp hr =>
    rw [hp] at ho
    simp only [hr] at ho
    exact handouts_free_open hok h hp hr o ho

/-! ## Nothing in use is destroyed -/

theorem Recovery.Ok.tables_frame {files : Levels} {log next seq : ℕ} {r : Recovery}
    (hr : r.Ok d files log next seq) {n : ℕ} (hn : n < next) (k : ℕ) :
    writeOutputs d.tables (r.outputs.take k) n = d.tables n := by
  refine writeOutputs_of_ne fun o ho heq => ?_
  have h1 := (hr.outputs_number (List.mem_of_mem_take ho)).1
  have h2 := hr.next_lt
  omega

theorem Engine.tables_frame (hok : e.Ok) (h : e.Counted) (hs : e.step opts a = some e') {n : ℕ}
    (hn : n ∈ e.installed ∨ n ∈ namedNumbers e.disk.manifest) :
    e'.disk.tables n = e.disk.tables n := by
  have hopen : ∀ {r : Recovery} {files : Levels} {log next seq : ℕ}, e.process = none →
      DiskOk e.disk files log next seq → r.Ok e.disk files log next seq → ∀ k,
      writeOutputs e.disk.tables (r.outputs.take k) n = e.disk.tables n := by
    intro r files log next seq hp hd hr k
    refine hr.tables_frame ?_ k
    rcases hn with hn | hn
    · exact h.none hp next hd.reads.nextFile n hn
    · exact hd.reads.namedNumbers_lt hn
  have hall : ∀ {r : Recovery} {files : Levels} {log next seq : ℕ}, e.process = none →
      DiskOk e.disk files log next seq → r.Ok e.disk files log next seq →
      writeOutputs e.disk.tables r.outputs n = e.disk.tables n := by
    intro r files log next seq hp hd hr
    have := hopen hp hd hr r.outputs.length
    rwa [List.take_length] at this
  cases Engine.step_steps hs with
  | crash p hp => rfl
  | process p _ d' p' hp hs' =>
    rcases Process.step_cases (hok.process hp).logs hs' with ⟨hq, -⟩ | hj
    · show d'.tables n = _
      rw [hq.tables]
    · refine ((hok.process hp).jobEffect hj).tables n (fun hr => ?_) fun heq => ?_
      · rcases hn with hn | hn
        · exact (h.process hp).unreserved n hr hn
        · exact ((hok.process hp).books.reserved n hr).2 hn
      · rcases hn with hn | hn
        · exact absurd ((h.process hp).taken n hn).1 (heq ▸ lt_irrefl _)
        · exact absurd ((hok.process hp).books.named n hn).1 (heq ▸ lt_irrefl _)
  | stopped others full tables logCreated r hp hr =>
    obtain ⟨files, log, next, seq, hd⟩ := hok.none hp
    have := hopen hp hd (hd.recover hr) tables
    cases logCreated <;> exact this
  | installed others full r hp hr =>
    obtain ⟨files, log, next, seq, hd⟩ := hok.none hp
    exact hall hp hd (hd.recover hr)
  | ok others full spared r hp hr =>
    obtain ⟨files, log, next, seq, hd⟩ := hok.none hp
    have hframe := removeObsoleteFiles_tables (r.install opts e.disk) (r.process opts) spared
    refine (congrFun hframe n).trans ?_
    exact hall hp hd (hd.recover hr)

/-- No record is lost: a step leaves the records or appends one. -/
theorem Engine.records_prefix (hok : e.Ok) (hs : e.step opts a = some e') :
    e.disk.records <+: e'.disk.records := by
  have hsame : e'.disk.records = e.disk.records → e.disk.records <+: e'.disk.records :=
    fun heq => heq ▸ List.prefix_rfl
  cases Engine.step_steps hs with
  | crash p hp => exact hsame rfl
  | process p _ d' p' hp hs' =>
    rcases Process.step_cases (hok.process hp).logs hs' with ⟨hq, -⟩ | hj
    · rcases hq.records with heq | ⟨r, heq⟩
      · exact hsame heq
      · show _ <+: d'.records
        rw [heq]
        exact List.prefix_append _ _
    · exact hsame ((hok.process hp).jobEffect hj).records
  | stopped others full tables logCreated r hp hr =>
    obtain ⟨files, log, next, seq, hd⟩ := hok.none hp
    cases logCreated with
    | false => exact hsame rfl
    | true => exact hsame (hd.createLog_records (hd.recover hr))
  | installed others full r hp hr =>
    obtain ⟨files, log, next, seq, hd⟩ := hok.none hp
    exact hsame (hd.createLog_records (hd.recover hr))
  | ok others full spared r hp hr =>
    obtain ⟨files, log, next, seq, hd⟩ := hok.none hp
    refine hsame ((removeObsoleteFiles_records _ _ _).trans ?_)
    exact hd.createLog_records (hd.recover hr)

end

/-- **Numbers are never in use when they are handed out.** At every step of every run, of
    allocations, failed rotations, flushes, compactions, ends of a process at any point
    and opens: a number for a table is that of no table any version ever held, the
    manifest in force names or a job is writing; a number for a log is that of no log in
    the directory; a number for a manifest is not that of the one CURRENT names. So no
    step changes such a table, and the records of every log stay. -/
theorem newFileNumber_free (opts : Options) (acts : List Action) (a : Action) (e e' : Engine)
    (hrun : Lib.run (Engine.step opts) Engine.created acts = some e)
    (hs : e.step opts a = some e') :
    (∀ o ∈ e.handouts opts a, o.Free e) ∧
    (∀ n, n ∈ e.installed ∨ n ∈ namedNumbers e.disk.manifest →
      e'.disk.tables n = e.disk.tables n) ∧
    (∀ n ∈ e.disk.logFiles, e.disk.log n <+: e'.disk.log n) := by
  obtain ⟨hok, hcounted⟩ := engineCounted_of_run hrun
  refine ⟨Engine.handouts_free hok hcounted hs, fun n hn => Engine.tables_frame hok hcounted hs hn,
    fun n _ => ?_⟩
  exact ((Engine.records_prefix hok hs).filter _).map _

/-- A flush, then a rotation that fails, gives its number back and leaves its log behind,
    then the end of the process. -/
def failedRotation : List Action :=
  [Action.openAll] ++ Action.write [.put [97] [1]] ++ Action.rotate ++ Action.flush ++
    Action.write [.put [98] [1]] ++ [.beginRotate, .endRotate false false, .crash]

/-- The open after it replays the log left behind and moves on past it. -/
theorem newFileNumber_free_failedRotation : ∃ e e',
    Lib.run (Engine.step sampleOptions) Engine.created failedRotation = some e ∧
    e.step sampleOptions .openAll = some e' ∧
    e.handouts sampleOptions .openAll = [.table 7, .log 8, .manifest 6] ∧
    ∀ o ∈ e.handouts sampleOptions .openAll, o.Free e := by
  have h : ((Lib.run (Engine.step sampleOptions) Engine.created failedRotation).bind fun e =>
      (e.step sampleOptions .openAll).map fun _ => e.handouts sampleOptions .openAll) =
      some [.table 7, .log 8, .manifest 6] := by
    decide +kernel
  obtain ⟨e, hrun, h⟩ := Option.bind_eq_some_iff.mp h
  obtain ⟨e', hs, heq⟩ := Option.map_eq_some_iff.mp h
  exact ⟨e, e', hrun, hs, heq,
    (newFileNumber_free sampleOptions failedRotation .openAll e e' hrun hs).1⟩

end Ambar
