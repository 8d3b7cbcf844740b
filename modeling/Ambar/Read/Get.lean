import Ambar.Format.Encoding
import Ambar.Format.WriteBatch
import Ambar.Version.Invariant

/-!
# Point lookups

Models of `MemTable::get` (`src/memtable.cpp`, lines 55–85) and `Version::get`
(`src/version_set.cpp`, lines 255–348). The sources are searched newest first, and the
first definite answer, a deletion included, ends the search. A table is searched for its
first entry at or after the lookup key.

* `seekEntry_finds`: a sorted source gives its newest visible version.
* `candidate_seekEntry`: the binary search finds what a search of the whole level would.
* `versionGet_spec`: the answer is the newest visible version of all.
* `versionGet_seekFile`: the file charged with a seek lies above the last level.
-/

namespace Ambar

/-- The first entry at or after the lookup key, if it is of the user key. -/
def seekEntry (entries : List Entry) (userKey : Bytes) (snapshot : ℕ) : Option Entry :=
  (entries.find? fun e => decide (makeLookupKey userKey snapshot ≤ e.key)).filter fun e =>
    decide (e.userKey = userKey)

/-- `MemTable::get`: `none` where the memtable has no answer. -/
def memTableGet (mem : MemTable) (userKey : Bytes) (snapshot : ℕ) :
    Option (Except Status Bytes) :=
  (seekEntry mem.toList userKey snapshot).map fun e =>
    if e.key.typeByte = ValueType.deletion.toNat then .error (.notFound "deleted") else .ok e.value

/-- `Saver::State` (lines 221–227). -/
inductive SaverState where
  | notFound
  | found (value : Bytes)
  | deleted
  | corrupt
deriving DecidableEq, Repr

/-- `save_value` (lines 229–246), called on the first entry at or after the lookup
    key. -/
def saveValue (userKey : Bytes) (e : Entry) : SaverState :=
  match parseInternalKey e.key with
  | none => .corrupt
  | some parsed =>
    if parsed.userKey ≠ userKey then .notFound
    else if parsed.type = .value then .found e.value else .deleted

/-- The end of `search` (lines 282–298) on the entries of one table: `none` to keep
    looking. -/
def tableGet (entries : List Entry) (userKey : Bytes) (snapshot : ℕ) :
    Option (Except Status Bytes) :=
  match (entries.find? fun e => decide (makeLookupKey userKey snapshot ≤ e.key)).elim .notFound
      (saveValue userKey) with
  | .notFound => none
  | .found value => some (.ok value)
  | .deleted => some (.error (.notFound "deleted"))
  | .corrupt => some (.error (.corruption "table entry has a malformed internal key"))

/-- The variables of `Version::get` that charge a seek (lines 257–263). -/
structure GetStats where
  seekFile : Option (ℕ × FileMetaData)
  lastFileRead : Option (ℕ × FileMetaData)

/-- The start of `search` (lines 266–275): the first file searched without success is
    charged. -/
def GetStats.charge (stats : GetStats) (level : ℕ) (file : FileMetaData) : GetStats :=
  ⟨stats.seekFile.or stats.lastFileRead, some (level, file)⟩

/-- `covers` (lines 300–305). -/
def covers (userKey : Bytes) (file : FileMetaData) : Bool :=
  decide (file.smallest.userKey ≤ userKey) && decide (userKey ≤ file.largest.userKey)

/-- The pass over level 0 (lines 317–324): the newest file not yet searched that covers
    the key; `newerThan` is the number of the file searched last. -/
def nextLevel0 (userKey : Bytes) (newerThan : ℕ) (files : List FileMetaData) :
    Option FileMetaData :=
  files.foldl (fun next file =>
    if decide (file.number < newerThan) &&
        next.all (fun g => decide (g.number < file.number)) && covers userKey file
    then some file else next) none

/-- The loop over level 0 (lines 314–329), for at most `fuel` files. -/
def searchLevel0 (tables : Tables) (files : List FileMetaData) (userKey : Bytes) (snapshot : ℕ) :
    (fuel newerThan : ℕ) → GetStats → Option (Except Status Bytes) × GetStats
  | 0, _, stats => (none, stats)
  | fuel + 1, newerThan, stats =>
    match nextLevel0 userKey newerThan files with
    | none => (none, stats)
    | some file =>
      let stats := stats.charge 0 file
      match tableGet (tables file.number) userKey snapshot with
      | some answer => (some answer, stats)
      | none => searchLevel0 tables files userKey snapshot fuel file.number stats

/-- The file of a deeper level that may hold the key (lines 334–343). -/
def candidate (files : List FileMetaData) (userKey : Bytes) (snapshot : ℕ) : Option FileMetaData :=
  files[findFile files (makeLookupKey userKey snapshot)]?.filter fun file =>
    decide (file.smallest.userKey ≤ userKey)

/-- The loop over the deeper levels (lines 333–346). -/
def searchLevels (tables : Tables) (files : Levels) (userKey : Bytes) (snapshot : ℕ) :
    List ℕ → GetStats → Option (Except Status Bytes) × GetStats
  | [], stats => (none, stats)
  | level :: levels, stats =>
    match candidate (files level) userKey snapshot with
    | none => searchLevels tables files userKey snapshot levels stats
    | some file =>
      let stats := stats.charge level file
      match tableGet (tables file.number) userKey snapshot with
      | some answer => (some answer, stats)
      | none => searchLevels tables files userKey snapshot levels stats

/-- `Version::get` (lines 255–348): the answer and the file charged with a seek. The loop over
    level 0 starts from `UINT64_MAX` (line 313). -/
def versionGet (tables : Tables) (files : Levels) (userKey : Bytes) (snapshot : ℕ) :
    Except Status Bytes × Option (ℕ × FileMetaData) :=
  match searchLevel0 tables (files 0) userKey snapshot (files 0).length (2 ^ 64 - 1)
      ⟨none, none⟩ with
  | (some answer, stats) => (answer, stats.seekFile)
  | (none, stats) =>
    match searchLevels tables files userKey snapshot (List.range' 1 (kNumLevels - 1)) stats with
    | (some answer, stats) => (answer, stats.seekFile)
    | (none, stats) => (.error (.notFound "not present"), stats.seekFile)

/-! ## Searching one source -/

/-- The answer an entry gives. -/
def answerOf (e : Entry) : Except Status Bytes :=
  match e.shown with
  | some value => .ok value
  | none => .error (.notFound "deleted")

theorem answerOf_eq {e : Entry} (hw : e.key.WellFormed) :
    answerOf e = if e.key.typeByte = ValueType.deletion.toNat then .error (.notFound "deleted")
      else .ok e.value := by
  unfold answerOf
  by_cases h0 : e.key.typeByte = ValueType.deletion.toNat
  · rw [(Entry.shown_eq_none_iff hw).mpr h0, if_pos h0]
  · have h1 : e.key.typeByte = ValueType.value.toNat := by
      have := hw.1
      simp only [ValueType.toNat_value, ValueType.toNat_deletion] at *
      omega
    rw [Entry.shown, if_pos h1, if_neg h0]

theorem tableGet_eq {es : List Entry} (hw : ∀ e ∈ es, e.key.WellFormed) (u : Bytes) (s : ℕ) :
    tableGet es u s = (seekEntry es u s).map answerOf := by
  unfold tableGet seekEntry
  cases h : es.find? fun e => decide (makeLookupKey u s ≤ e.key) with
  | none => rfl
  | some e =>
    have hwe := hw e (List.mem_of_find?_eq_some h)
    obtain ⟨t, ht, hparse⟩ := parseInternalKey_wellFormed hwe
    simp only [Option.elim_some, saveValue, hparse]
    by_cases hu : e.key.userKey = u
    · simp only [hu, ne_eq, not_true_eq_false, if_false, Option.filter_some, decide_true, if_true,
        Option.map_some, answerOf_eq hwe, ← ht]
      cases t <;> simp
    · simp [hu]

/-- A sorted source gives its newest visible version. -/
theorem seekEntry_finds {es : List Entry} (hs : Entry.Sorted es)
    (hw : ∀ e ∈ es, e.key.WellFormed) (u : Bytes) (s : ℕ) :
    Entry.versioning.Finds {e | e ∈ es} u s (seekEntry es u s) := by
  unfold seekEntry
  cases h : es.find? fun e => decide (makeLookupKey u s ≤ e.key) with
  | none =>
    intro e he heu
    have hlt : ¬ makeLookupKey u s ≤ e.key := by simpa using List.find?_eq_none.mp h e he
    rw [makeLookupKey_le_iff (hw e he).1 heu] at hlt
    exact not_le.mp hlt
  | some e =>
    obtain ⟨hle, pre, post, rfl, hpre⟩ := List.find?_eq_some_iff_append.mp h
    simp only [decide_eq_true_eq] at hle
    -- every version of `u` that the reader sees comes at or after `e`
    have hafter : ∀ x ∈ pre ++ e :: post, x.userKey = u → x.sequence ≤ s → e.key ≤ x.key := by
      intro x hx hxu hxs
      rcases List.mem_append.mp hx with hx' | hx'
      · have hno : ¬ makeLookupKey u s ≤ x.key := by simpa using hpre x hx'
        exact absurd ((makeLookupKey_le_iff (hw x hx).1 hxu).mpr hxs) hno
      · rcases List.mem_cons.mp hx' with rfl | hx'
        · exact le_rfl
        · exact ((List.pairwise_cons.mp (List.pairwise_append.mp hs).2.1).1 x hx').le
    by_cases hu : e.userKey = u
    · rw [Option.filter_some, if_pos (by simpa using hu)]
      exact ⟨by simp, hu, (makeLookupKey_le_iff (hw e (by simp)).1 hu).mp hle, hafter⟩
    · rw [Option.filter_some, if_neg (by simpa using hu)]
      intro x hx hxu
      by_contra hn
      have h1 := InternalKey.userKey_le_of_le (hafter x hx hxu (not_lt.mp hn))
      have h2 := InternalKey.userKey_le_of_le hle
      rw [makeLookupKey_userKey] at h2
      exact hu (le_antisymm (h1.trans hxu.le) h2)

/-! ## The deeper levels -/

/-- The candidate file holds what a search of the whole level would find. -/
theorem candidate_seekEntry {tables : Tables} {files : List FileMetaData} (hd : Disjoint files)
    (hok : ∀ f ∈ files, FileOk tables f) (u : Bytes) (s : ℕ) :
    (candidate files u s).bind (fun f => seekEntry (tables f.number) u s) =
      seekEntry (files.flatMap fun f => tables f.number) u s := by
  obtain ⟨pre, post, heq, hlen, hpre, hpost⟩ := findFile_split (makeLookupKey u s) hd
    fun f hf => (hok f hf).proper.1
  have hcand : files[findFile files (makeLookupKey u s)]? = post.head? := by
    rw [← hlen, heq, List.getElem?_append_right le_rfl, Nat.sub_self, List.head?_eq_getElem?]
  -- the files before the candidate end before the lookup key
  have hskip : (pre.flatMap fun f => tables f.number).find?
      (fun e => decide (makeLookupKey u s ≤ e.key)) = none := by
    refine List.find?_eq_none.mpr fun e he => ?_
    obtain ⟨f, hf, hef⟩ := List.mem_flatMap.mp he
    have hle := (hok f (by rw [heq]; exact List.mem_append_left _ hf)).le_largest hef
    simpa using hle.trans_lt (hpre f hf)
  unfold candidate
  rw [hcand]
  conv_rhs => rw [heq]
  unfold seekEntry
  rw [List.flatMap_append, List.find?_append, hskip, Option.none_or]
  cases post with
  | nil => rfl
  | cons f rest =>
    have hfok := hok f (by rw [heq]; simp)
    -- the candidate's last entry is at or after the lookup key
    obtain ⟨last, hlast, hkey⟩ := hfok.exists_largest
    obtain ⟨e, he⟩ : ∃ e, (tables f.number).find?
        (fun e => decide (makeLookupKey u s ≤ e.key)) = some e := by
      refine Option.isSome_iff_exists.mp (List.find?_isSome.mpr ⟨last, hlast, ?_⟩)
      simpa [hkey] using hpost f (by simp)
    rw [List.flatMap_cons, List.find?_append, he, Option.some_or, List.head?_cons]
    by_cases hsm : f.smallest.userKey ≤ u
    · rw [Option.filter_some, if_pos (by simpa using hsm), Option.bind_some, he]
    · rw [Option.filter_some, if_neg (by simpa using hsm), Option.bind_none]
      have hne : e.userKey ≠ u := fun heu =>
        hsm (heu ▸ (hfok.bounds (List.mem_of_find?_eq_some he)).1)
      rw [Option.filter_some, if_neg (by simpa using hne)]

/-- The entries of the levels still to search. -/
def levelsEntries (tables : Tables) (files : Levels) (levels : List ℕ) : Set Entry :=
  {e | ∃ level ∈ levels, ∃ f ∈ files level, e ∈ tables f.number}

theorem searchLevels_spec {tables : Tables} {files : Levels} (hl : Searchable tables files)
    (u : Bytes) (s : ℕ) :
    ∀ (levels : List ℕ) (stats : GetStats), levels.Pairwise (· < ·) → (∀ l ∈ levels, 0 < l) →
      ∃ a, Entry.versioning.Finds (levelsEntries tables files levels) u s a ∧
        (searchLevels tables files u s levels stats).1 = a.map answerOf := by
  intro levels
  induction levels with
  | nil => exact fun _ _ _ => ⟨none, fun e ⟨l, hlm, _⟩ => absurd hlm (by simp), rfl⟩
  | cons level levels ih =>
    intro stats hlt hpos
    obtain ⟨hlt1, hlt2⟩ := List.pairwise_cons.mp hlt
    have hd := hl.disjoint level (hpos level (by simp))
    have hcand := candidate_seekEntry hd (hl.fileOk level) u s
    set flat := (files level).flatMap fun f => tables f.number with hflat
    have hfw : ∀ e ∈ flat, e.key.WellFormed := by
      intro e he
      obtain ⟨f, hf, hef⟩ := List.mem_flatMap.mp he
      exact (hl.fileOk level f hf).wellFormed e hef
    have hfs : Entry.Sorted flat := by
      refine List.pairwise_flatMap.mpr ⟨fun f hf => (hl.fileOk level f hf).sorted, ?_⟩
      refine hd.imp_of_mem fun {f g} hf hg hfg a ha b hb => ?_
      exact ((hl.fileOk level f hf).le_largest ha).trans_lt
        (hfg.trans_le ((hl.fileOk level g hg).smallest_le hb))
    have hfind := seekEntry_finds hfs hfw u s
    have hset : levelsEntries tables files (level :: levels) =
        {e | e ∈ flat} ∪ levelsEntries tables files levels := by
      ext e
      constructor
      · rintro ⟨l, hlm, hrest⟩
        rcases List.mem_cons.mp hlm with rfl | hlm
        · exact Or.inl (List.mem_flatMap.mpr hrest)
        · exact Or.inr ⟨l, hlm, hrest⟩
      · rintro (hrest | ⟨l, hlm, hrest⟩)
        · exact ⟨level, by simp, List.mem_flatMap.mp hrest⟩
        · exact ⟨l, List.mem_cons_of_mem _ hlm, hrest⟩
    have hnewer : ∀ a ∈ {e | e ∈ flat}, ∀ b ∈ levelsEntries tables files levels,
        a.userKey = u → b.userKey = u → a.key < b.key := by
      rintro a ha b ⟨l, hlm, g, hg, hb⟩ hau hbu
      obtain ⟨f, hf, haf⟩ := List.mem_flatMap.mp ha
      exact hl.recency level l (hlt1 l hlm) f hf g hg a haf b hb (hau.trans hbu.symm)
    rw [hset]
    rw [← hcand] at hfind
    rw [searchLevels]
    cases hc : candidate (files level) u s with
    | none =>
      rw [hc, Option.bind_none] at hfind
      obtain ⟨a, ha, hres⟩ := ih stats hlt2 fun l hlm => hpos l (List.mem_cons_of_mem _ hlm)
      exact ⟨a, hfind.union ha hnewer, hres⟩
    | some file =>
      have hfile : file ∈ files level := by
        have := (Option.filter_eq_some_iff.mp hc).1
        exact List.mem_of_getElem? this
      rw [hc, Option.bind_some] at hfind
      dsimp only
      rw [tableGet_eq (hl.fileOk level file hfile).wellFormed]
      cases hse : seekEntry (tables file.number) u s with
      | some e =>
        rw [hse] at hfind
        obtain ⟨a, ha, -⟩ := ih (stats.charge level file) hlt2
          fun l hlm => hpos l (List.mem_cons_of_mem _ hlm)
        exact ⟨some e, hfind.union ha hnewer, rfl⟩
      | none =>
        rw [hse] at hfind
        obtain ⟨a, ha, hres⟩ := ih (stats.charge level file) hlt2
          fun l hlm => hpos l (List.mem_cons_of_mem _ hlm)
        exact ⟨a, hfind.union ha hnewer, hres⟩

/-! ## Level 0 -/

/-- The file is older than the one searched last. -/
def olderThan (newerThan : ℕ) (f : FileMetaData) : Bool := decide (f.number < newerThan)

theorem nextLevel0_spec (u : Bytes) (newerThan : ℕ) (files : List FileMetaData) :
    match nextLevel0 u newerThan files with
    | none => ∀ f ∈ files, olderThan newerThan f = true → covers u f = false
    | some g => g ∈ files ∧ olderThan newerThan g = true ∧ covers u g = true ∧
        ∀ f ∈ files, olderThan newerThan f = true → covers u f = true → f.number ≤ g.number := by
  induction files using List.reverseRecOn with
  | nil => simp [nextLevel0]
  | append_singleton files x ih =>
    rw [nextLevel0, List.foldl_append]
    rw [nextLevel0] at ih
    generalize files.foldl _ none = next at *
    rw [List.foldl_cons, List.foldl_nil]
    simp only [Bool.and_eq_true]
    split_ifs with hx
    · obtain ⟨⟨hold, hnext⟩, hcov⟩ := hx
      refine ⟨by simp, hold, hcov, fun f hf hfo hfc => ?_⟩
      rcases List.mem_append.mp hf with hf | hf
      · cases next with
        | none => simp [ih f hf hfo] at hfc
        | some g =>
          have hlt : g.number < x.number := by simpa using hnext
          exact (ih.2.2.2 f hf hfo hfc).trans hlt.le
      · rw [List.mem_singleton.mp hf]
    · cases next with
      | none =>
        intro f hf hfo
        rcases List.mem_append.mp hf with hf | hf
        · exact ih f hf hfo
        · rw [List.mem_singleton.mp hf] at hfo ⊢
          by_contra hcov
          exact hx ⟨⟨hfo, rfl⟩, by simpa using hcov⟩
      | some g =>
        refine ⟨List.mem_append_left _ ih.1, ih.2.1, ih.2.2.1, fun f hf hfo hfc => ?_⟩
        rcases List.mem_append.mp hf with hf | hf
        · exact ih.2.2.2 f hf hfo hfc
        · rw [List.mem_singleton.mp hf] at hfo hfc ⊢
          by_contra hn
          exact hx ⟨⟨hfo, by simpa using not_le.mp hn⟩, hfc⟩

/-- The entries of the level-0 files still to search. -/
def level0Entries (tables : Tables) (files : Levels) (newerThan : ℕ) : Set Entry :=
  {e | ∃ f ∈ files 0, olderThan newerThan f = true ∧ e ∈ tables f.number}

theorem covers_of_mem {tables : Tables} {f : FileMetaData} (hf : FileOk tables f) {e : Entry}
    (he : e ∈ tables f.number) : covers e.userKey f = true := by
  simp [covers, hf.bounds he]

theorem searchLevel0_spec {tables : Tables} {files : Levels} (hl : Searchable tables files)
    (u : Bytes) (s : ℕ) :
    ∀ (fuel newerThan : ℕ) (stats : GetStats),
      (files 0).countP (olderThan newerThan) ≤ fuel →
      ∃ a, Entry.versioning.Finds (level0Entries tables files newerThan) u s a ∧
        (searchLevel0 tables (files 0) u s fuel newerThan stats).1 = a.map answerOf := by
  intro fuel
  induction fuel with
  | zero =>
    intro newerThan stats hcount
    refine ⟨none, ?_, rfl⟩
    rintro e ⟨f, hf, hfo, -⟩ -
    have := List.countP_eq_zero.mp (Nat.le_zero.mp hcount) f hf
    exact absurd hfo this
  | succ fuel ih =>
    intro newerThan stats hcount
    have hspec := nextLevel0_spec u newerThan (files 0)
    rw [searchLevel0]
    cases hn : nextLevel0 u newerThan (files 0) with
    | none =>
      rw [hn] at hspec
      refine ⟨none, ?_, rfl⟩
      rintro e ⟨f, hf, hfo, he⟩ heu
      have h1 := hspec f hf hfo
      have h2 := covers_of_mem (hl.fileOk 0 f hf) he
      rw [show e.userKey = u from heu, h1] at h2
      exact absurd h2 (by simp)
    | some file =>
      rw [hn] at hspec
      obtain ⟨hfile, hfo, -, hmax⟩ := hspec
      have hfok := hl.fileOk 0 file hfile
      have hfind := seekEntry_finds hfok.sorted hfok.wellFormed u s
      -- the files left are the older ones; those skipped do not cover the key
      have hcount' : (files 0).countP (olderThan file.number) ≤ fuel := by
        have : (files 0).countP (olderThan file.number) <
            (files 0).countP (olderThan newerThan) := by
          refine countP_lt_of_imp hfile (fun f hf => ?_) hfo (by simp [olderThan])
          simp only [olderThan, decide_eq_true_eq] at hf hfo ⊢
          omega
        omega
      obtain ⟨a, ha, hres⟩ := ih file.number (stats.charge 0 file) hcount'
      have hset : level0Entries tables files newerThan ⊆
          {e | e ∈ tables file.number} ∪ level0Entries tables files file.number ∪
            {e | e.userKey ≠ u} := by
        rintro e ⟨f, hf, hfo', he⟩
        by_cases heu : e.userKey = u
        · have hcov := covers_of_mem (hl.fileOk 0 f hf) he
          rw [heu] at hcov
          rcases (hmax f hf hfo' hcov).eq_or_lt with heq | hlt
          · have := hl.level0_number f hf file hfile heq
            exact Or.inl (Or.inl (this ▸ he))
          · exact Or.inl (Or.inr ⟨f, hf, by simpa [olderThan] using hlt, he⟩)
        · exact Or.inr heu
      have hsub : {e | e ∈ tables file.number} ∪ level0Entries tables files file.number ⊆
          level0Entries tables files newerThan := by
        rintro e (he | ⟨f, hf, hlt, he⟩)
        · exact ⟨file, hfile, hfo, he⟩
        · refine ⟨f, hf, ?_, he⟩
          simp only [olderThan, decide_eq_true_eq] at hlt hfo ⊢
          omega
      have hnewer : ∀ a ∈ {e | e ∈ tables file.number},
          ∀ b ∈ level0Entries tables files file.number,
          a.userKey = u → b.userKey = u → a.key < b.key := by
        rintro a ha b ⟨f, hf, hlt, hb⟩ hau hbu
        exact hl.level0 file hfile f hf (by simpa [olderThan] using hlt) a ha b hb
          (hau.trans hbu.symm)
      have hall := hfind.union ha hnewer
      have hfinds := hall.of_same_key hsub fun e he heu => (hset he).resolve_right (not_not.mpr heu)
      dsimp only
      rw [tableGet_eq hfok.wellFormed]
      cases hse : seekEntry (tables file.number) u s with
      | some e =>
        rw [hse] at hfinds
        exact ⟨some e, hfinds, rfl⟩
      | none =>
        rw [hse, Option.none_or] at hfinds
        exact ⟨a, hfinds, hres⟩

/-! ## The whole lookup -/

/-- The answer of a search for the version that a reader sees. -/
def answer (found : Option Entry) (absent : String) : Except Status Bytes :=
  (found.map answerOf).getD (.error (.notFound absent))

/-- The answer is the value the reader is shown, and not found if it is shown none. -/
theorem answer_spec {S : Set Entry} {u : Bytes} {s : ℕ} {a : Option Entry}
    (ha : Entry.versioning.Finds S u s a) (hinj : Set.InjOn Entry.key S) (absent : String) :
    (∀ value, answer a absent = .ok value ↔ Entry.versioning.Shows S u s value) ∧
    ((∀ value, ¬ Entry.versioning.Shows S u s value) →
      ∃ message, answer a absent = .error (.notFound message)) := by
  have hshows := fun value => ha.shows_iff (v := value) hinj
  cases a with
  | none =>
    refine ⟨fun value => ?_, fun _ => ⟨_, rfl⟩⟩
    rw [hshows]
    simp [answer]
  | some e =>
    have hans : answer (some e) absent = answerOf e := rfl
    rw [hans]
    have hshown : Entry.versioning.shown e = e.shown := rfl
    simp only [Option.bind_some, hshown] at hshows
    unfold answerOf
    cases hv : e.shown with
    | some value' =>
      refine ⟨fun value => ?_, fun hno => ?_⟩
      · rw [hshows, hv]
        simp
      · exact absurd ((hshows value').mpr hv) (hno value')
    | none =>
      refine ⟨fun value => ?_, fun _ => ⟨_, rfl⟩⟩
      rw [hshows, hv]
      simp

/-- The entries of the files that `Version::get` may search: at level 0 those with a number
    below the one its loop starts from. -/
def searchedEntries (tables : Tables) (files : Levels) : Set Entry :=
  {e | ∃ level, ∃ f ∈ files level, (level = 0 → f.number < 2 ^ 64 - 1) ∧ e ∈ tables f.number}

theorem versionGet_spec {tables : Tables} {files : Levels} (hl : Searchable tables files)
    (u : Bytes) (s : ℕ) :
    ∃ a, Entry.versioning.Finds (searchedEntries tables files) u s a ∧
      (versionGet tables files u s).1 = answer a "not present" := by
  obtain ⟨a, ha, hres0⟩ := searchLevel0_spec hl u s (files 0).length (2 ^ 64 - 1)
    ⟨none, none⟩ List.countP_le_length
  have hlevels : (List.range' 1 (kNumLevels - 1)).Pairwise (· < ·) := by decide
  have hset : searchedEntries tables files = level0Entries tables files (2 ^ 64 - 1) ∪
      levelsEntries tables files (List.range' 1 (kNumLevels - 1)) := by
    ext e
    constructor
    · rintro ⟨level, f, hf, hlt, he⟩
      rcases Nat.eq_zero_or_pos level with rfl | hpos
      · exact Or.inl ⟨f, hf, decide_eq_true (hlt rfl), he⟩
      · refine Or.inr ⟨level, ?_, f, hf, he⟩
        have := hl.level_lt level f hf
        rw [List.mem_range'_1]
        simp only [kNumLevels] at *
        omega
    · rintro (⟨f, hf, hlt, he⟩ | ⟨level, hlev, f, hf, he⟩)
      · exact ⟨0, f, hf, fun _ => of_decide_eq_true hlt, he⟩
      · have := (List.mem_range'_1.mp hlev).1
        exact ⟨level, f, hf, by omega, he⟩
  have hnewer : ∀ a ∈ level0Entries tables files (2 ^ 64 - 1),
      ∀ b ∈ levelsEntries tables files (List.range' 1 (kNumLevels - 1)),
      a.userKey = u → b.userKey = u → a.key < b.key := by
    rintro a ⟨f, hf, -, ha⟩ b ⟨level, hlev, g, hg, hb⟩ hau hbu
    have := (List.mem_range'_1.mp hlev).1
    exact hl.recency 0 level (by omega) f hf g hg a ha b hb (hau.trans hbu.symm)
  unfold versionGet
  rw [hset]
  rcases hs0 : searchLevel0 tables (files 0) u s (files 0).length (2 ^ 64 - 1)
    ⟨none, none⟩ with ⟨r, stats⟩
  rw [hs0] at hres0
  obtain ⟨b, hb, hres⟩ := searchLevels_spec hl u s (List.range' 1 (kNumLevels - 1)) stats hlevels
    fun l hlm => (List.mem_range'_1.mp hlm).1
  refine ⟨a.or b, ha.union hb hnewer, ?_⟩
  cases a with
  | some e =>
    simp only [Option.map_some] at hres0
    simp [hres0, answer]
  | none =>
    simp only [Option.map_none] at hres0
    simp only [hres0]
    rcases hs : searchLevels tables files u s (List.range' 1 (kNumLevels - 1)) stats with ⟨r', stats'⟩
    rw [hs] at hres
    cases b with
    | some e =>
      simp only [Option.map_some] at hres
      simp [hres, answer]
    | none =>
      simp only [Option.map_none] at hres
      simp [hres, answer]

/-! ## Seeks -/

/-- The files read so far are of the version; the one charged lies above the last
    level, and the one read last at level 0 or above `level`. -/
structure GetStats.Ok (files : Levels) (level : ℕ) (stats : GetStats) : Prop where
  seek : ∀ l f, stats.seekFile = some (l, f) → f ∈ files l ∧ l + 1 < kNumLevels
  last : ∀ l f, stats.lastFileRead = some (l, f) → f ∈ files l ∧ (l = 0 ∨ l < level)

theorem GetStats.Ok.charge {files : Levels} {level : ℕ} {stats : GetStats}
    (h : stats.Ok files level) {file : FileMetaData} (hf : file ∈ files level)
    (hlt : level < kNumLevels) {next : ℕ} (hnext : level = 0 ∨ level < next) :
    (stats.charge level file).Ok files next := by
  constructor
  · intro l f hlf
    rcases Option.or_eq_some_iff.mp hlf with hs | ⟨-, hs⟩
    · exact h.seek l f hs
    · obtain ⟨h1, h2⟩ := h.last l f hs
      refine ⟨h1, ?_⟩
      simp only [kNumLevels] at *
      omega
  · intro l f hlf
    cases hlf
    exact ⟨hf, hnext⟩

theorem searchLevel0_stats {tables : Tables} {files : Levels} (u : Bytes) (s : ℕ) :
    ∀ (fuel newerThan : ℕ) (stats : GetStats), stats.Ok files 0 →
      (searchLevel0 tables (files 0) u s fuel newerThan stats).2.Ok files 0 := by
  intro fuel
  induction fuel with
  | zero => exact fun _ _ h => h
  | succ fuel ih =>
    intro newerThan stats h
    have hspec := nextLevel0_spec u newerThan (files 0)
    rw [searchLevel0]
    cases hn : nextLevel0 u newerThan (files 0) with
    | none => exact h
    | some file =>
      rw [hn] at hspec
      have hch : (stats.charge 0 file).Ok files 0 := h.charge hspec.1 (by decide) (Or.inl rfl)
      dsimp only
      cases tableGet (tables file.number) u s with
      | some answer => exact hch
      | none => exact ih _ _ hch

theorem searchLevels_stats {tables : Tables} {files : Levels} (u : Bytes) (s : ℕ) :
    ∀ (levels : List ℕ) (stats : GetStats), levels.Pairwise (· < ·) →
      (∀ l ∈ levels, l < kNumLevels) → (∀ l ∈ levels, stats.Ok files l) →
      ∀ l f, (searchLevels tables files u s levels stats).2.seekFile = some (l, f) →
        (∀ l f, stats.seekFile = some (l, f) → f ∈ files l ∧ l + 1 < kNumLevels) →
        f ∈ files l ∧ l + 1 < kNumLevels := by
  intro levels
  induction levels with
  | nil => exact fun _ _ _ _ l f h hseek => hseek l f h
  | cons level levels ih =>
    intro stats hlt hl7 hok l f h hseek
    obtain ⟨hlt1, hlt2⟩ := List.pairwise_cons.mp hlt
    rw [searchLevels] at h
    cases hc : candidate (files level) u s with
    | none =>
      rw [hc] at h
      exact ih stats hlt2 (fun l hlm => hl7 l (List.mem_cons_of_mem _ hlm))
        (fun l hlm => hok l (List.mem_cons_of_mem _ hlm)) l f h hseek
    | some file =>
      have hfile : file ∈ files level := List.mem_of_getElem? (Option.filter_eq_some_iff.mp hc).1
      have hch : ∀ next, level < next → (stats.charge level file).Ok files next := fun next hnext =>
        (hok level (by simp)).charge hfile (hl7 level (by simp)) (Or.inr hnext)
      have hseek' := (hch (level + 1) (Nat.lt_succ_self _)).seek
      rw [hc] at h
      dsimp only at h
      cases hg : tableGet (tables file.number) u s with
      | some answer =>
        rw [hg] at h
        exact hseek' l f h
      | none =>
        rw [hg] at h
        exact ih _ hlt2 (fun l hlm => hl7 l (List.mem_cons_of_mem _ hlm))
          (fun l hlm => hch l (hlt1 l hlm)) l f h hseek'

/-- The file charged with a seek is one of the version's, above the last level: it is
    charged when another is read after it. -/
theorem versionGet_seekFile {tables : Tables} {files : Levels} {u : Bytes} {s level : ℕ}
    {f : FileMetaData} (h : (versionGet tables files u s).2 = some (level, f)) :
    f ∈ files level ∧ level + 1 < kNumLevels := by
  have h0 : (GetStats.mk none none).Ok files 0 := ⟨by simp, by simp⟩
  have hok := @searchLevel0_stats tables files u s (files 0).length (2 ^ 64 - 1) _ h0
  unfold versionGet at h
  rcases hs : searchLevel0 tables (files 0) u s (files 0).length (2 ^ 64 - 1) ⟨none, none⟩ with
    ⟨r, stats⟩
  rw [hs] at h hok
  cases r with
  | some answer => exact hok.seek level f h
  | none =>
    dsimp only at h
    have hlast : ∀ l ∈ List.range' 1 (kNumLevels - 1), stats.Ok files l := by
      intro l hlm
      refine ⟨hok.seek, fun l' f' hl' => ?_⟩
      obtain ⟨h1, h2⟩ := hok.last l' f' hl'
      exact ⟨h1, Or.inl (by omega)⟩
    have hrun := @searchLevels_stats tables files u s (List.range' 1 (kNumLevels - 1)) stats
      (by decide) (by decide) hlast level f
    rcases hs' : searchLevels tables files u s (List.range' 1 (kNumLevels - 1)) stats with
      ⟨r', stats'⟩
    rw [hs'] at h hrun
    cases r' with
    | some answer => exact hrun h hok.seek
    | none => exact hrun h hok.seek

end Ambar
