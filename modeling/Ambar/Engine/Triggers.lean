import Ambar.Engine.Numbers

/-!
# What starts a compaction

A compaction is started by the size of a level, by lookups that search files in vain, or by
`compact_range`. A lookup holds the version that was current when it began, and its seek is
charged to that version, which may have been replaced in the meantime (`DBImpl::get`,
`src/db_impl.cpp`, lines 856–917); the level of the charge is checked nowhere.

Results:
* `ProcessOk.jobStart`: what one step of the background thread can start.
* `Readers.Ok.step`: the bounds of the level-0 tables and the files marked by seeks are kept
  by every step.
* `compactions_inRange`: every compaction is of a level above the last and has an input.
-/

namespace Ambar

/-! ## Lookups and the versions they hold -/

/-- A version that has been replaced, with the file its seeks have marked. -/
structure OlderVersion where
  files : Levels
  fileToCompact : Option (ℕ × FileMetaData)

/-- A lookup with the mutex released. The versions of a process are numbered as they are
    installed; `version` is the one the lookup holds. -/
structure Lookup where
  version : ℕ
  key : Bytes
  snapshot : ℕ

/-- The file the lookup charges in the version it holds (`src/db_impl.cpp`, lines 901–906), if
    the file has used up its seeks. -/
def Lookup.seekFile (l : Lookup) (files : Levels) (tables : Tables) (exhausted : Bool) :
    Option (ℕ × FileMetaData) :=
  if exhausted then (versionGet tables files l.key l.snapshot).2 else none

/-- The engine and the lookups in progress; `older` are the versions before the current one. -/
structure Readers where
  engine : Engine
  older : List OlderVersion
  lookups : List Lookup

/-- The steps. A lookup ends with what it found in the tables: one that cannot be read ends the
    search as one with a malformed key does. -/
inductive ReaderAction where
  | engine (a : Action)
  | get (key : Bytes) (snapshot : ℕ)
  | charge (index : ℕ) (tables : Tables) (exhausted : Bool)

/-- The step replaces the current version. -/
def Action.installs : Action → Bool
  | .syncEdit _ => true
  | _ => false

namespace Readers

/-- A database just created, which nobody reads. -/
def created : Readers := ⟨Engine.created, [], []⟩

/-- After a step of the engine: the lookups go on with the versions they hold; they end with
    their process. -/
def after (s : Readers) (a : Action) (e : Engine) : Readers :=
  match s.engine.process, e.process with
  | some p, some _ =>
    { s with
      engine := e
      older := if a.installs then s.older ++ [⟨p.versions.files, p.versions.fileToCompact⟩]
        else s.older }
  | _, _ => ⟨e, [], []⟩

/-- `current->update_stats(stats)` for the version the lookup holds. -/
def charge (s : Readers) (p : Process) (l : Lookup) (tables : Tables) (exhausted : Bool) : Readers :=
  match s.older[l.version]? with
  | some v =>
    let mark := v.fileToCompact.or (l.seekFile v.files tables exhausted)
    { s with older := s.older.set l.version ⟨v.files, mark⟩ }
  | none =>
    let p := p.mark (l.seekFile p.versions.files tables exhausted)
    { s with engine := { s.engine with process := some p } }

/-- One step. -/
def step (opts : Options) (s : Readers) : ReaderAction → Option Readers
  | .engine (.chargeSeek _ _) => none
  | .engine a => (s.engine.step opts a).map (s.after a)
  | .get key snapshot =>
    if s.engine.process.isSome then
      some { s with lookups := s.lookups ++ [⟨s.older.length, key, snapshot⟩] }
    else none
  | .charge index tables exhausted =>
    match s.lookups[index]?, s.engine.process with
    | some l, some p =>
      some ({ s with lookups := s.lookups.eraseIdx index }.charge p l tables exhausted)
    | _, _ => none

end Readers

/-- The deepest level with files, at least 1 (`DBImpl::compact_range`, lines 1557–1565); the
    levels before it are compacted one after the other (line 1595). -/
def maxLevelWithFiles (files : Levels) : ℕ :=
  (List.range' 1 (kNumLevels - 1)).foldl
    (fun deepest level => if 0 < (files level).length then level else deepest) 1

theorem maxLevelWithFiles_lt (files : Levels) : maxLevelWithFiles files < kNumLevels := by
  have hfold : ∀ (l : List ℕ) (deepest : ℕ), (∀ level ∈ l, level < kNumLevels) →
      deepest < kNumLevels →
      l.foldl (fun deepest level => if 0 < (files level).length then level else deepest) deepest <
        kNumLevels := by
    intro l
    induction l with
    | nil => exact fun _ _ h => h
    | cons level l ih =>
      intro deepest hl hd
      refine ih _ (fun x hx => hl x (List.mem_cons_of_mem _ hx)) ?_
      show (if 0 < (files level).length then level else deepest) < kNumLevels
      split_ifs
      · exact hl level List.mem_cons_self
      · exact hd
  exact hfold _ 1 (by decide) (by decide)

/-! ## The tables of level 0 -/

/-- Where an edit adds a table to level 0, its bounds are in order. -/
def VersionEdit.Level0Proper (edit : VersionEdit) : Prop :=
  ∀ f, (0, f) ∈ edit.newFiles → f.smallest ≤ f.largest

theorem memTable_bounds {mem : MemTable} {first last : Entry} (hfirst : mem.toList.head? = some first)
    (hlast : mem.toList.getLast? = some last) : first.key ≤ last.key :=
  Lib.OrderedSet.head_le hfirst (List.mem_of_mem_getLast? hlast)

theorem level0Proper_flushEdit {opts : Options} {p : Process} {number : ℕ} {imm : MemTable} :
    (p.flushEdit opts number imm).Level0Proper := by
  intro f hf
  have hfile := (flushEdit_newFiles hf).1
  unfold memTableFile at hfile
  split at hfile
  · next first last hfirst hlast =>
    cases hfile
    exact memTable_bounds hfirst hlast
  · cases hfile

/-- A compaction adds nothing to level 0. -/
theorem level0Proper_installEdit (opts : Options) (c : Compaction) (outputs : List Output) :
    (c.installEdit opts outputs).Level0Proper := by
  intro f hf
  rw [(c.installEdit_spec opts outputs).1] at hf
  obtain ⟨o, -, heq⟩ := List.mem_map.mp hf
  cases heq

theorem level0Proper_moveEdit (c : Compaction) (f : FileMetaData) : (c.moveEdit f).Level0Proper := by
  intro g hg
  have hg : (0, g) ∈ [(c.level + 1, f)] := hg
  cases List.mem_singleton.mp hg

theorem Live.exists_edit {edits : List VersionEdit} {level : ℕ} {f : FileMetaData}
    (h : Live edits level f) : ∃ edit ∈ edits, (level, f) ∈ edit.newFiles := by
  induction edits with
  | nil => exact absurd h id
  | cons edit edits ih =>
    rcases h with h | ⟨h, -⟩
    · exact ⟨edit, List.mem_cons_self, h⟩
    · obtain ⟨edit', hmem, h⟩ := ih h
      exact ⟨edit', List.mem_cons_of_mem _ hmem, h⟩

/-- The files of a version were added by the edits that list it. -/
theorem Listed.level0_proper {edits : List VersionEdit} {files : Levels} (h : Listed edits files)
    (hedits : ∀ edit ∈ edits, edit.Level0Proper) : ∀ f ∈ files 0, f.smallest ≤ f.largest := by
  intro f hf
  obtain ⟨edit, hmem, hnew⟩ := ((h.replays.live 0 f).mp hf).2.exists_edit
  exact hedits edit (List.mem_reverse.mp hmem) f hnew

theorem Recovery.level0Proper_edit (opts : Options) (r : Recovery) : (r.edit opts).Level0Proper := by
  intro f hf
  obtain ⟨o, ho, heq⟩ := List.mem_map.mp hf
  cases heq
  obtain ⟨w, -, hw⟩ := List.mem_filterMap.mp ho
  split at hw
  · next first last hfirst hlast =>
    cases hw
    exact memTable_bounds hfirst hlast
  · cases hw

/-! ## The compactions of a version -/

/-- The level below a compaction's is one of the version, and it has an input. -/
structure Compaction.InRange (c : Compaction) : Prop where
  level : c.level ≤ kNumLevels - 2
  seed : c.inputs0 ≠ []

/-- A level whose score is at least 1 has a first file. -/
theorem sizeSeed_total {v : VersionSet}
    (h : (levelScore v.files (compactionLevel v.files)).2 ≤
      (levelScore v.files (compactionLevel v.files)).1) :
    ∃ f, sizeSeed v = some (compactionLevel v.files, f) := by
  have hne : v.files (compactionLevel v.files) ≠ [] := by
    intro hnil
    unfold levelScore at h
    split_ifs at h with h0
    · rw [h0] at hnil
      rw [hnil] at h
      exact absurd h (by decide)
    · rw [hnil] at h
      have hpos : 0 < 10 * 1048576 * 10 ^ (compactionLevel v.files - 1) := by positivity
      have hzero : totalFileSize [] = 0 := rfl
      simp only [hzero] at h
      omega
  unfold sizeSeed
  simp only [if_pos h]
  split
  · next f hf => exact ⟨f, rfl⟩
  · obtain ⟨f, rest, hf⟩ := List.exists_cons_of_ne_nil hne
    exact ⟨f, by rw [hf]; rfl⟩

/-- What `pick_compaction` starts with leads to a compaction. -/
theorem pickCompaction_total {opts : Options} {v : VersionSet} (hs : v.SeeksOk)
    (hproper : ∀ f ∈ v.files 0, f.smallest ≤ f.largest) {level : ℕ} {f : FileMetaData}
    (hseed : (sizeSeed v).or v.fileToCompact = some (level, f)) :
    level ≤ kNumLevels - 2 ∧ seedInputs v.files level f ≠ [] ∧
      ∃ c, pickCompaction opts v = some c ∧ c.level = level ∧ c.InRange := by
  obtain ⟨hf, hlevel⟩ : f ∈ v.files level ∧ level + 1 < kNumLevels := by
    rcases Option.or_eq_some_iff.mp hseed with h | ⟨-, h⟩
    · exact sizeSeed_mem h
    · exact hs level f h
  have hle : level ≤ kNumLevels - 2 := by omega
  have hne : seedInputs v.files level f ≠ [] := by
    refine List.ne_nil_of_mem (mem_seedInputs hf fun h0 => ?_)
    subst h0
    exact InternalKey.userKey_le_of_le (hproper f hf)
  obtain ⟨c, hc, hclevel, hinputs⟩ := setupOtherInputs_total opts v.files level hne
  refine ⟨hle, hne, c, ?_, hclevel, hclevel ▸ hle, hinputs⟩
  rw [pickCompaction, hseed]
  exact hc

theorem pickCompaction_inRange {opts : Options} {v : VersionSet} {c : Compaction} (hs : v.SeeksOk)
    (hproper : ∀ f ∈ v.files 0, f.smallest ≤ f.largest) (h : pickCompaction opts v = some c) :
    c.InRange := by
  obtain ⟨⟨level, f⟩, hseed, -⟩ := Option.bind_eq_some_iff.mp h
  obtain ⟨-, -, c', hc', -, hin⟩ := @pickCompaction_total opts v hs hproper level f hseed
  cases hc'.symm.trans h
  exact hin

/-- A manual compaction of a range that some file of the level meets. -/
theorem compactRange_total (opts : Options) (v : VersionSet) {level : ℕ} (b e : Option InternalKey)
    (hlevel : level + 1 < kNumLevels) (hne : getOverlappingInputs level (v.files level) b e ≠ []) :
    ∃ c, compactRange opts v level b e = some c ∧ c.level = level ∧ c.InRange := by
  obtain ⟨f, fs, hfs⟩ := List.exists_cons_of_ne_nil hne
  have hchosen : (if 0 < level then takeUpTo opts.maxFileSize 0 (f :: fs) else f :: fs) ≠ [] := by
    split_ifs
    · obtain ⟨n, hn⟩ := takeUpTo_take opts.maxFileSize (f :: fs) 0
      rw [hn]
      exact List.cons_ne_nil _ _
    · exact List.cons_ne_nil _ _
  obtain ⟨c, hc, hclevel, hinputs⟩ := setupOtherInputs_total opts v.files level hchosen
  refine ⟨c, ?_, hclevel, ⟨by omega, hinputs⟩⟩
  simp only [compactRange, hfs]
  exact hc

theorem compactRange_inRange {opts : Options} {v : VersionSet} {level : ℕ} {b e : Option InternalKey}
    {c : Compaction} (hlevel : level + 1 < kNumLevels) (h : compactRange opts v level b e = some c) :
    c.InRange := by
  have hne : getOverlappingInputs level (v.files level) b e ≠ [] := by
    intro hnil
    simp [compactRange, hnil] at h
  obtain ⟨c', hc', -, hin⟩ := compactRange_total opts v b e hlevel hne
  cases hc'.symm.trans h
  exact hin

/-! ## One step -/

/-- The compaction in progress. -/
def Job.work : Job → Option Work
  | .idle => none
  | .building _ resume => resume
  | .flushing _ resume => resume
  | .moving _ => none
  | .working work => some work
  | .installing _ work => some work

/-- The bounds of the tables of level 0, in the version, the manifest and the edit in flight,
    and the compaction in progress. -/
structure StartsOk (d : Disk) (p : Process) : Prop where
  manifest : ∀ edit ∈ d.manifest, edit.Level0Proper
  files : ∀ f ∈ p.versions.files 0, f.smallest ≤ f.largest
  logging : ∀ l, p.job.logging = some l → l.edit.Level0Proper
  work : ∀ w, p.job.work = some w → w.compaction.InRange

section

variable {opts : Options} {d d' : Disk} {p p' : Process} {a : Action}

theorem flushFails_job (p : Process) (resume : Option Work) : (p.flushFails resume).job = .idle := by
  cases resume <;> rfl

theorem afterFlush_work (resume : Option Work) : (Job.afterFlush resume).work = resume := by
  cases resume <;> rfl

/-- A job with no edit in flight and no compaction. -/
theorem nothing_started {job : Job} (hlogging : job.logging = none) (hwork : job.work = none) :
    (∀ l, job.logging = some l → l.edit.Level0Proper) ∧
      ∀ w, job.work = some w → w.compaction.InRange := by
  constructor
  · intro l hl
    cases hlogging.symm.trans hl
  · intro w hw
    cases hwork.symm.trans hw

/-- What a step of the background thread can start: an edit that adds only tables with their
    bounds in order to level 0, and a compaction of a level above the last. -/
theorem ProcessOk.jobStart (h : ProcessOk d p) (hstarts : StartsOk d p)
    (hs : JobStep opts d p a d' p') :
    (∀ l, p'.job.logging = some l → l.edit.Level0Proper) ∧
      ∀ w, p'.job.work = some w → w.compaction.InRange := by
  have hlogging := hstarts.logging
  have hwork := hstarts.work
  cases hs with
  | nothing manual => exact ⟨hlogging, hwork⟩
  | flush manual imm hjob herr hshut himm =>
    exact nothing_started rfl rfl
  | manual request c hjob herr hshut hlevel hc =>
    refine ⟨fun l hl => (by cases hl), fun w hw => ?_⟩
    cases hw
    exact compactRange_inRange hlevel hc
  | move c f rest hjob herr hshut hc hmove hf =>
    refine ⟨fun l hl => ?_, fun w hw => by cases hw⟩
    cases hl
    exact level0Proper_moveEdit c f
  | automatic c hjob herr hshut hc =>
    refine ⟨fun l hl => (by cases hl), fun w hw => ?_⟩
    cases hw
    exact pickCompaction_inRange h.books.seeks hstarts.files hc
  | nested work imm hjob himm hshut =>
    refine ⟨fun l hl => (by cases hl), fun w hw => ?_⟩
    cases hw
    exact hwork work (by rw [hjob]; rfl)
  | built number resume imm hjob himm hshut =>
    refine ⟨fun l hl => ?_, fun w hw => hwork w (by rw [hjob]; exact hw)⟩
    cases hl
    exact level0Proper_flushEdit
  | builtLate number resume imm hjob himm hshut =>
    rw [flushFails_job]
    exact nothing_started rfl rfl
  | entry work e rest next hjob hrest hnext =>
    refine ⟨fun l hl => (by cases hl), fun w hw => ?_⟩
    cases hw
    exact hwork work (by rw [hjob]; rfl)
  | finish work hjob hrest =>
    refine ⟨fun l hl => ?_, fun w hw => ?_⟩
    · cases hl
      exact level0Proper_installEdit opts _ _
    · cases hw
      exact hwork work (by rw [hjob]; rfl)
  | append l job happ hjob hkind =>
    rcases hkind with ⟨resume, rfl⟩ | rfl | ⟨work, rfl⟩
    · refine ⟨fun l' hl => ?_, fun w hw => hwork w (by rw [hjob]; exact hw)⟩
      cases hl
      exact hlogging l (by rw [hjob]; rfl)
    · refine ⟨fun l' hl => ?_, fun w hw => by cases hw⟩
      cases hl
      exact hlogging l (by rw [hjob]; rfl)
    · refine ⟨fun l' hl => ?_, fun w hw => hwork w (by rw [hjob]; exact hw)⟩
      cases hl
      exact hlogging l (by rw [hjob]; rfl)
  | syncFlush l resume spared q hjob happ hq =>
    subst hq
    refine ⟨fun l hl => ?_, fun w hw => hwork w (by rw [hjob]; exact afterFlush_work resume ▸ hw)⟩
    cases resume with
    | none => cases hl
    | some work => cases hl
  | syncMove l spared q hjob happ hq =>
    subst hq
    exact nothing_started rfl rfl
  | syncInstall l work spared q hjob happ hq =>
    subst hq
    exact nothing_started rfl rfl
  | failBuild number resume whole took spared hjob =>
    rw [flushFails_job]
    exact nothing_started rfl rfl
  | failFlush l resume whole took spared hjob =>
    rw [flushFails_job]
    exact nothing_started rfl rfl
  | failMove l whole took spared q hjob hq =>
    subst hq
    exact nothing_started rfl rfl
  | failWork work whole took spared q hjob hq =>
    subst hq
    exact nothing_started rfl rfl
  | failInstall l work whole took spared q hjob hq =>
    subst hq
    exact nothing_started rfl rfl

theorem StartsOk.jobStep (hstarts : StartsOk d p) (h : ProcessOk d p)
    (hs : JobStep opts d p a d' p') : StartsOk d' p' := by
  have heffect := h.jobEffect hs
  obtain ⟨hlogging, hwork⟩ := h.jobStart hstarts hs
  have hmanifest : ∀ edit ∈ d'.manifest, edit.Level0Proper := by
    rcases heffect.manifest with hm | ⟨l, hl, hm⟩
    · rw [hm]
      exact hstarts.manifest
    · rw [hm]
      intro edit hedit
      rcases List.mem_append.mp hedit with hedit | hedit
      · exact hstarts.manifest edit hedit
      · rw [List.mem_singleton.mp hedit]
        exact hstarts.logging l hl
  refine ⟨hmanifest, ?_, hlogging, hwork⟩
  rcases heffect.files with hf | ⟨-, log, next, seq, hreads, -⟩
  · rw [hf]
    exact hstarts.files
  · exact hreads.listed.level0_proper hmanifest

theorem StartsOk.quiet (h : StartsOk d p) (hq : Quiet d p d' p') : StartsOk d' p' where
  manifest := hq.manifest ▸ h.manifest
  files := hq.files ▸ h.files
  logging := hq.job ▸ h.logging
  work := hq.job ▸ h.work

end

/-! ## The engine and its readers -/

/-- The same with or without a process. -/
def Engine.StartsOk (e : Engine) : Prop :=
  match e.process with
  | none => ∀ edit ∈ e.disk.manifest, edit.Level0Proper
  | some p => Ambar.StartsOk e.disk p

section

variable {opts : Options} {e e' : Engine} {a : Action}

theorem Engine.StartsOk.process (h : e.StartsOk) {p : Process} (hp : e.process = some p) :
    Ambar.StartsOk e.disk p := by
  unfold Engine.StartsOk at h
  rwa [hp] at h

theorem Engine.StartsOk.manifest (h : e.StartsOk) : ∀ edit ∈ e.disk.manifest, edit.Level0Proper := by
  cases hp : e.process with
  | none =>
    unfold Engine.StartsOk at h
    rwa [hp] at h
  | some p => exact (h.process hp).manifest

/-- The edits of the manifest an open writes. -/
theorem Recovery.Ok.level0Proper {d : Disk} {files : Levels} {log next seq : ℕ} {r : Recovery}
    (h : r.Ok d files log next seq) (hreads : Reads d.manifest files log next seq)
    (hmanifest : ∀ edit ∈ d.manifest, edit.Level0Proper) :
    ∀ edit ∈ (r.install opts d).manifest, edit.Level0Proper := by
  intro edit hedit
  rcases List.mem_pair.mp hedit with rfl | rfl
  · intro f hf
    have hmem : f ∈ r.versions.files 0 := (VersionSet.mem_writeSnapshot.mp hf).2
    rw [h.files] at hmem
    exact hreads.listed.level0_proper hmanifest f hmem
  · exact r.level0Proper_edit opts

theorem Engine.StartsOk.step (h : e.StartsOk) (hok : e.Ok) (hs : e.step opts a = some e') :
    e'.StartsOk := by
  cases Engine.step_steps hs with
  | crash p hp => exact h.manifest
  | process p _ d' p' hp hs' =>
    rcases Process.step_cases (hok.process hp).logs hs' with ⟨hq, -⟩ | hj
    · exact (h.process hp).quiet hq
    · exact (h.process hp).jobStep (hok.process hp) hj
  | stopped others full tables logCreated r hp hr =>
    have hmanifest := h.manifest
    cases logCreated <;> exact hmanifest
  | installed others full r hp hr =>
    obtain ⟨files, log, next, seq, hd⟩ := hok.none hp
    exact (hd.recover hr).level0Proper hd.reads h.manifest
  | ok others full spared r hp hr =>
    obtain ⟨files, log, next, seq, hd⟩ := hok.none hp
    have hr' := hd.recover hr
    have hmanifest : ∀ edit ∈ (r.install opts e.disk).manifest, edit.Level0Proper :=
      hr'.level0Proper hd.reads h.manifest
    refine ⟨?_, ?_, (nothing_started rfl rfl).1, (nothing_started rfl rfl).2⟩
    · show ∀ edit ∈ (removeObsoleteFiles _ _ _).manifest, edit.Level0Proper
      rw [removeObsoleteFiles_manifest]
      exact hmanifest
    · exact (hr'.reads_install hd.reads).listed.level0_proper hmanifest

end

/-- The file marked by the seeks of a version is one of its files, above the last level. -/
def OlderVersion.SeeksOk (v : OlderVersion) : Prop :=
  ∀ level f, v.fileToCompact = some (level, f) → f ∈ v.files level ∧ level + 1 < kNumLevels

/-- What holds while the database is read. -/
structure Readers.Ok (s : Readers) : Prop where
  engine : s.engine.Ok
  starts : s.engine.StartsOk
  older : ∀ v ∈ s.older, v.SeeksOk
  held : ∀ l ∈ s.lookups, l.version ≤ s.older.length

theorem Lookup.seekFile_mem {l : Lookup} {files : Levels} {tables : Tables} {exhausted : Bool}
    {level : ℕ} {f : FileMetaData} (h : l.seekFile files tables exhausted = some (level, f)) :
    f ∈ files level ∧ level + 1 < kNumLevels := by
  unfold Lookup.seekFile at h
  split_ifs at h
  exact versionGet_seekFile h

namespace Readers

variable {opts : Options} {s s' : Readers}

theorem Ok.after (h : s.Ok) {a : Action} {e : Engine} (hs : s.engine.step opts a = some e) :
    (s.after a e).Ok := by
  have hengine := h.engine.step hs
  have hstarts := h.starts.step h.engine hs
  unfold Readers.after
  split
  · next p p' hp hp' =>
    refine ⟨hengine, hstarts, ?_, ?_⟩
    · intro v hv
      split_ifs at hv
      · rcases List.mem_append.mp hv with hv | hv
        · exact h.older v hv
        · rw [List.mem_singleton.mp hv]
          exact (h.engine.process hp).books.seeks
      · exact h.older v hv
    · intro l hl
      have := h.held l hl
      split_ifs
      · rw [List.length_append]
        exact this.trans (Nat.le_add_right _ _)
      · exact this
  · exact ⟨hengine, hstarts, fun v hv => absurd hv List.not_mem_nil,
      fun l hl => absurd hl List.not_mem_nil⟩

theorem Ok.charge (h : s.Ok) {p : Process} (hp : s.engine.process = some p) (l : Lookup)
    (tables : Tables) (exhausted : Bool) : (s.charge p l tables exhausted).Ok := by
  unfold Readers.charge
  split
  · next v hv =>
    -- an older version: nobody compacts by its mark
    refine ⟨h.engine, h.starts, fun w hw => ?_, fun m hm => ?_⟩
    · rcases List.mem_or_eq_of_mem_set hw with hw | rfl
      · exact h.older w hw
      · intro level f hf
        rcases Option.or_eq_some_iff.mp hf with hf | ⟨-, hf⟩
        · exact h.older v (List.mem_of_getElem? hv) level f hf
        · exact Lookup.seekFile_mem hf
    · rw [List.length_set]
      exact h.held m hm
  · have hok := h.engine.process hp
    obtain ⟨hlogs, hquiet⟩ := quiet_mark hok.logs fun level f =>
      @Lookup.seekFile_mem l p.versions.files tables exhausted level f
    refine ⟨?_, ?_, h.older, h.held⟩
    · exact ⟨hlogs, hok.books.quiet hok.logs hquiet⟩
    · exact (h.starts.process hp).quiet hquiet

/-- **Every step keeps what the triggers rely on.** -/
theorem Ok.step (h : s.Ok) {a : ReaderAction} (hs : s.step opts a = some s') : s'.Ok := by
  cases a with
  | engine a =>
    have hs : ∃ e, s.engine.step opts a = some e ∧ s.after a e = s' := by
      cases a <;> first | exact Option.map_eq_some_iff.mp hs | cases hs
    obtain ⟨e, he, rfl⟩ := hs
    exact h.after he
  | get key snapshot =>
    simp only [Readers.step, Option.ite_none_right_eq_some, Option.some.injEq] at hs
    obtain ⟨-, rfl⟩ := hs
    refine ⟨h.engine, h.starts, h.older, fun l hl => ?_⟩
    rcases List.mem_append.mp hl with hl | hl
    · exact h.held l hl
    · rw [List.mem_singleton.mp hl]
  | charge index tables exhausted =>
    dsimp only [Readers.step] at hs
    split at hs
    · next l p hl hp =>
      cases hs
      have hrest : Ok { s with lookups := s.lookups.eraseIdx index } :=
        ⟨h.engine, h.starts, h.older, fun l hl => h.held l (List.mem_of_mem_eraseIdx hl)⟩
      exact hrest.charge hp l tables exhausted
    · cases hs

theorem created_ok : created.Ok where
  engine := engineOk_created
  starts := by
    intro edit hedit f hf
    rw [List.mem_singleton.mp hedit] at hf
    exact absurd hf List.not_mem_nil
  older := fun v hv => absurd hv List.not_mem_nil
  held := fun l hl => absurd hl List.not_mem_nil

theorem ok_of_run {acts : List ReaderAction} (h : Lib.run (step opts) created acts = some s) : s.Ok :=
  Lib.run_invariant (step opts) (fun _ _ _ h hs => h.step hs) created_ok h

end Readers

/-- **Compactions stay in range.** In every state of every run, with lookups that charge the
    version they hold, whether it is still current or not: a level whose score asks for a
    compaction has a file to start with; the file that `pick_compaction` starts with, by size or
    by seeks, leads to a compaction; so does every level that `compact_range` asks for, whatever
    version it counted the levels of, where it has a file in the range; all of them are of a level
    above the last and have an input, and so has the one in progress. -/
theorem compactions_inRange (opts : Options) (acts : List ReaderAction) (s : Readers) (p : Process)
    (hrun : Lib.run (Readers.step opts) Readers.created acts = some s)
    (hp : s.engine.process = some p) :
    ((levelScore p.versions.files (compactionLevel p.versions.files)).2 ≤
        (levelScore p.versions.files (compactionLevel p.versions.files)).1 →
      ∃ f, sizeSeed p.versions = some (compactionLevel p.versions.files, f)) ∧
    (∀ level f, (sizeSeed p.versions).or p.versions.fileToCompact = some (level, f) →
      level ≤ kNumLevels - 2 ∧ seedInputs p.versions.files level f ≠ [] ∧
        ∃ c, pickCompaction opts p.versions = some c ∧ c.level = level ∧ c.InRange) ∧
    (∀ (base : Levels) (level : ℕ) (b e : Option InternalKey), level < maxLevelWithFiles base →
      getOverlappingInputs level (p.versions.files level) b e ≠ [] →
        ∃ c, compactRange opts p.versions level b e = some c ∧ c.level = level ∧ c.InRange) ∧
    (∀ c, pickCompaction opts p.versions = some c → c.InRange) ∧
    (∀ (base : Levels) (level : ℕ) (b e : Option InternalKey) (c : Compaction),
      level < maxLevelWithFiles base → compactRange opts p.versions level b e = some c →
        c.InRange) ∧
    ∀ w, p.job.work = some w → w.compaction.InRange := by
  have hok := Readers.ok_of_run hrun
  have hseeks := (hok.engine.process hp).books.seeks
  have hstarts := hok.starts.process hp
  have hbelow : ∀ {base : Levels} {level : ℕ}, level < maxLevelWithFiles base →
      level + 1 < kNumLevels := fun {base level} h => by
    have := maxLevelWithFiles_lt base
    omega
  refine ⟨sizeSeed_total, fun level f hseed => pickCompaction_total hseeks hstarts.files hseed,
    fun base level b e hl hne => compactRange_total opts p.versions b e (hbelow hl) hne,
    fun c hc => pickCompaction_inRange hseeks hstarts.files hc,
    fun base level b e c hl hc => compactRange_inRange (hbelow hl) hc, hstarts.work⟩

/-- Two tables of `a` and `c`, and a lookup of `b` that searches both. -/
def searchedInVain : List ReaderAction :=
  ([Action.openAll] ++ Action.write [.put [97] [1], .put [99] [1]] ++ Action.rotate ++ Action.flush ++
    Action.write [.put [97] [2], .put [99] [2]] ++ Action.rotate ++ Action.flush).map .engine ++
  [.get [98] 100, .charge 0 (fun _ => []) true]

/-- The upper of the two is compacted. -/
theorem compactions_inRange_searchedInVain : ∃ s p c,
    Lib.run (Readers.step sampleOptions) Readers.created searchedInVain = some s ∧
    s.engine.process = some p ∧ pickCompaction sampleOptions p.versions = some c ∧ c.level = 1 ∧
    c.InRange := by
  have h : ((Lib.run (Readers.step sampleOptions) Readers.created searchedInVain).bind fun s =>
      s.engine.process.bind fun p => (pickCompaction sampleOptions p.versions).map (·.level)) =
      some 1 := by
    decide +kernel
  obtain ⟨s, hrun, h⟩ := Option.bind_eq_some_iff.mp h
  obtain ⟨p, hp, h⟩ := Option.bind_eq_some_iff.mp h
  obtain ⟨c, hc, hlevel⟩ := Option.map_eq_some_iff.mp h
  exact ⟨s, p, c, hrun, hp, hc, hlevel,
    (compactions_inRange sampleOptions searchedInVain s p hrun hp).2.2.2.1 c hc⟩

end Ambar
