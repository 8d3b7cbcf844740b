import Ambar.Compaction.Work

/-!
# What a compaction changes

A compaction runs while flushes add files to the version it was picked on. What it
relies on is stated against the version at its end (`Compaction.Pending`): the
inputs are still there, the files left in their levels hold only newer versions of
their user keys, and what has come below them shares no user key with them.

* `Compaction.Closed.pending`: it holds of the version the compaction is picked on.
* `inputEntries_spec`: the input is sorted and holds the entries of the inputs.
* `Compaction.Pending.mem_files`: the files after the install.
* `Compaction.Pending.shows_iff`: it changes no view from the snapshot on.
-/

namespace Ambar

/-- What a compaction in progress relies on in the current version. -/
structure Compaction.Pending (tables : Tables) (files : Levels) (c : Compaction) : Prop where
  ne : c.inputs0 ≠ []
  level_lt : c.level + 1 < kNumLevels
  sub0 : ∀ f ∈ c.inputs0, f ∈ files c.level
  sub1 : ∀ f ∈ c.inputs1, f ∈ files (c.level + 1)
  nodup0 : c.inputs0.Nodup
  disjoint0 : 0 < c.level → Disjoint c.inputs0
  disjoint1 : Disjoint c.inputs1
  upper : ∀ f ∈ files c.level, f ∉ c.inputs0 → ∀ g ∈ c.inputs0, NewerFile tables f g
  lower : ∀ f ∈ files (c.level + 1), f ∉ c.inputs1 →
    (∀ g ∈ c.inputs0 ++ c.inputs1, f.largest < g.smallest) ∨
    (∀ g ∈ c.inputs0 ++ c.inputs1, g.largest.userKey < f.smallest.userKey)
  deeper : ∀ level, c.level + 2 ≤ level → ∀ f ∈ files level, f ∈ c.inputVersion level ∨
    ∀ g ∈ c.inputs0 ++ c.inputs1,
      f.largest.userKey < g.smallest.userKey ∨ g.largest.userKey < f.smallest.userKey
  versionDisjoint : ∀ level, 0 < level → Disjoint (c.inputVersion level)
  versionProper : ∀ level, ∀ f ∈ c.inputVersion level, f.smallest ≤ f.largest

theorem Compaction.Closed.pending {tables : Tables} {files : Levels} {c : Compaction}
    (h : c.Closed files) (hl : LevelsOk tables files) (hv : c.inputVersion = files)
    (hlt : c.level + 1 < kNumLevels) : c.Pending tables files where
  ne := h.ne
  level_lt := hlt
  sub0 := fun f hf => h.sub0.subset hf
  sub1 := fun f hf => h.sub1.subset hf
  nodup0 := (nodup_of_sortedBy (hl.sorted c.level)).sublist h.sub0
  disjoint0 := fun hpos => (hl.disjoint c.level hpos).sublist h.sub0
  disjoint1 := (hl.disjoint (c.level + 1) (Nat.succ_pos _)).sublist h.sub1
  upper := fun f hf hfn g hg => (h.upper f hf hfn g hg).newerFile (hl.fileOk _ f hf)
    (hl.fileOk _ g (h.sub0.subset hg))
  lower := by
    intro f hf hfn
    rcases h.lower f hf hfn with ⟨h0, h1⟩ | ⟨h0, h1⟩
    · refine Or.inl fun g hg => ?_
      rcases List.mem_append.mp hg with hg | hg
      · exact InternalKey.lt_of_userKey_lt (h0 g hg)
      · exact h1 g hg
    · exact Or.inr fun g hg => (List.mem_append.mp hg).elim (h0 g) (h1 g)
  deeper := fun level _ f hf => Or.inl (hv ▸ hf)
  versionDisjoint := hv ▸ hl.disjoint
  versionProper := fun level f hf => (hl.fileOk level f (hv ▸ hf)).proper.1

namespace Compaction.Pending

variable {tables : Tables} {files : Levels} {c : Compaction}

/-- The files of the inputs, with their levels. -/
theorem input_mem (h : c.Pending tables files) {g : FileMetaData}
    (hg : g ∈ c.inputs0 ++ c.inputs1) :
    (g ∈ files c.level ∧ g ∈ c.inputs0) ∨ (g ∈ files (c.level + 1) ∧ g ∈ c.inputs1) := by
  rcases List.mem_append.mp hg with hg | hg
  · exact Or.inl ⟨h.sub0 g hg, hg⟩
  · exact Or.inr ⟨h.sub1 g hg, hg⟩

/-- The entries arrive sorted, and are those of the inputs. -/
theorem inputEntries_spec (h : c.Pending tables files) (hl : LevelsOk tables files) :
    Entry.Sorted (inputEntries tables c) ∧
      ∀ e, e ∈ inputEntries tables c ↔ ∃ g ∈ c.inputs0 ++ c.inputs1, e ∈ tables g.number := by
  have hok0 : ∀ g ∈ c.inputs0, FileOk tables g := fun g hg => hl.fileOk _ g (h.sub0 g hg)
  have hok1 : ∀ g ∈ c.inputs1, FileOk tables g := fun g hg => hl.fileOk _ g (h.sub1 g hg)
  have hsorted : ∀ source ∈ inputSources tables c, Entry.Sorted (source.entries tables) := by
    intro source hs
    unfold inputSources at hs
    rcases List.mem_append.mp hs with hs | hs
    · split_ifs at hs with h1 h2
      · simp at hs
      · obtain ⟨g, hg, rfl⟩ := List.mem_map.mp hs
        exact (hok0 g hg).sorted
      · rw [List.mem_singleton.mp hs]
        exact sorted_level (h.disjoint0 (Nat.pos_of_ne_zero h2)) hok0
    · split_ifs at hs with h1
      · simp at hs
      · rw [List.mem_singleton.mp hs]
        exact sorted_level h.disjoint1 hok1
  have hne01 : ∀ f ∈ c.inputs0, ∀ g ∈ c.inputs1, ∀ a ∈ tables f.number, ∀ b ∈ tables g.number,
      a.key ≠ b.key := by
    intro f hf g hg a ha b hb hk
    have := (hl.eq_of_key_eq (h.sub0 f hf) (h.sub1 g hg) ha hb hk).1
    omega
  have hdistinct : (inputSources tables c).Pairwise fun s t =>
      ∀ a ∈ s.entries tables, ∀ b ∈ t.entries tables, a.key ≠ b.key := by
    unfold inputSources
    refine List.pairwise_append.mpr ⟨?_, ?_, ?_⟩
    · split_ifs with h1 h2
      · exact List.Pairwise.nil
      · refine List.pairwise_map.mpr (h.nodup0.imp_of_mem ?_)
        intro f g hf hg hfg a ha b hb hk
        exact hfg (hl.eq_of_key_eq (h.sub0 f hf) (h.sub0 g hg) ha hb hk).2.1
      · exact List.pairwise_singleton _ _
    · split_ifs
      · exact List.Pairwise.nil
      · exact List.pairwise_singleton _ _
    · intro s hs t ht a ha b hb
      split_ifs at ht with h3
      · simp at ht
      · rw [List.mem_singleton.mp ht] at hb
        obtain ⟨g, hg, hb⟩ := List.mem_flatMap.mp hb
        split_ifs at hs with h1 h2
        · simp at hs
        · obtain ⟨f, hf, rfl⟩ := List.mem_map.mp hs
          exact hne01 f hf g hg a ha b hb
        · rw [List.mem_singleton.mp hs] at ha
          obtain ⟨f, hf, ha⟩ := List.mem_flatMap.mp ha
          exact hne01 f hf g hg a ha b hb
  obtain ⟨-, h1, h2⟩ := internalEntries_spec hsorted (nodup_sources hsorted hdistinct)
  refine ⟨h1, fun e => ?_⟩
  rw [inputEntries, h2]
  constructor
  · rintro ⟨source, hs, he⟩
    unfold inputSources at hs
    rcases List.mem_append.mp hs with hs | hs
    · split_ifs at hs with h3 h4
      · simp at hs
      · obtain ⟨g, hg, rfl⟩ := List.mem_map.mp hs
        exact ⟨g, List.mem_append_left _ hg, he⟩
      · rw [List.mem_singleton.mp hs] at he
        obtain ⟨g, hg, he⟩ := List.mem_flatMap.mp he
        exact ⟨g, List.mem_append_left _ hg, he⟩
    · split_ifs at hs with h3
      · simp at hs
      · rw [List.mem_singleton.mp hs] at he
        obtain ⟨g, hg, he⟩ := List.mem_flatMap.mp he
        exact ⟨g, List.mem_append_right _ hg, he⟩
  · rintro ⟨g, hg, he⟩
    unfold inputSources
    rcases List.mem_append.mp hg with hg | hg
    · by_cases h4 : c.level = 0
      · refine ⟨.list (tables g.number), ?_, he⟩
        rw [if_neg (List.ne_nil_of_mem hg), if_pos h4]
        exact List.mem_append_left _ (List.mem_map.mpr ⟨g, hg, rfl⟩)
      · refine ⟨.level c.inputs0, ?_, List.mem_flatMap.mpr ⟨g, hg, he⟩⟩
        rw [if_neg (List.ne_nil_of_mem hg), if_neg h4]
        exact List.mem_append_left _ (List.mem_singleton.mpr rfl)
    · refine ⟨.level c.inputs1, ?_, List.mem_flatMap.mpr ⟨g, hg, he⟩⟩
      rw [if_neg (List.ne_nil_of_mem hg)]
      exact List.mem_append_right _ (List.mem_singleton.mpr rfl)

/-- An input entry lies in a file of the inputs. -/
theorem exists_input (h : c.Pending tables files) (hl : LevelsOk tables files) {e : Entry}
    (he : e ∈ inputEntries tables c) :
    ∃ g, e ∈ tables g.number ∧ ((g ∈ files c.level ∧ g ∈ c.inputs0) ∨
      (g ∈ files (c.level + 1) ∧ g ∈ c.inputs1)) := by
  obtain ⟨g, hg, he⟩ := ((h.inputEntries_spec hl).2 e).mp he
  exact ⟨g, he, h.input_mem hg⟩

/-- A file above the lower level that is no input is newer than the inputs. -/
theorem newer_above (h : c.Pending tables files) (hl : LevelsOk tables files) {i : ℕ}
    (hi : i < c.level + 1) {f : FileMetaData} (hf : f ∈ files i)
    (hfn : ¬ (i = c.level ∧ f ∈ c.inputs0)) {a b : Entry} (ha : a ∈ tables f.number)
    (hb : b ∈ inputEntries tables c) (hu : a.userKey = b.userKey) : a.key < b.key := by
  obtain ⟨g, hbg, ⟨hg, hgi⟩ | ⟨hg, -⟩⟩ := h.exists_input hl hb
  · rcases (Nat.lt_succ_iff.mp hi).eq_or_lt with rfl | hlt
    · exact h.upper f hf (fun h => hfn ⟨rfl, h⟩) g hgi a ha b hbg hu
    · exact hl.recency i c.level hlt f hf g hg a ha b hbg hu
  · exact hl.recency i (c.level + 1) hi f hf g hg a ha b hbg hu

/-- Below a dead deletion of the inputs lies no older version but in the inputs. -/
theorem older_in_inputs (hp : c.Pending tables files) (hl : LevelsOk tables files)
    {snapshot : ℕ} {r e : Entry} (hr : r ∈ inputEntries tables c)
    (hdead : DeadTombstone c snapshot r) (he : e ∈ contents tables files)
    (hu : e.userKey = r.userKey) (hk : r.key < e.key) : e ∈ inputEntries tables c := by
  obtain ⟨level, f, hf, hef⟩ := he
  obtain ⟨g, hrg, hg⟩ := hp.exists_input hl hr
  have hgin : g ∈ c.inputs0 ++ c.inputs1 :=
    hg.elim (fun h => List.mem_append_left _ h.2) fun h => List.mem_append_right _ h.2
  have hgok : FileOk tables g := hg.elim (fun h => hl.fileOk _ g h.1) fun h => hl.fileOk _ g h.1
  have hfok := hl.fileOk level f hf
  rw [(hp.inputEntries_spec hl).2]
  by_contra hnot
  have hfn : f ∉ c.inputs0 ++ c.inputs1 := fun h => hnot ⟨f, h, hef⟩
  rcases lt_or_ge level (c.level + 1) with hlt | hge
  · have := hp.newer_above hl hlt hf (fun h => hfn (List.mem_append_left _ h.2)) hef hr hu
    exact absurd (this.trans hk) (lt_irrefl _)
  · rcases hge.eq_or_lt with rfl | hgt
    · -- beside the inputs: wholly before or after them
      have hnew : NotOlder f g := (hp.lower f hf fun h => hfn (List.mem_append_right _ h)).imp
        (fun h => h g hgin) fun h => h g hgin
      exact absurd ((hnew.newerFile hfok hgok e hef r hrg hu).trans hk) (lt_irrefl _)
    · -- below them: in the version the compaction was picked on, or apart
      rcases hp.deeper level (by omega) f hf with hin | hapart
      · refine hdead.2.2 level (mem_deeperLevels.mpr ⟨hl.level_lt level f hf, by omega⟩) f hin ?_
        rw [← hu]
        exact hfok.bounds hef
      · have h1 := hfok.bounds hef
        have h2 := hgok.bounds hrg
        rw [hu] at h1
        rcases hapart g hgin with h | h
        · exact absurd (h1.2.trans_lt (h.trans_le h2.1)) (lt_irrefl _)
        · exact absurd (h2.2.trans_lt (h.trans_le h1.1)) (lt_irrefl _)

end Compaction.Pending

/-! ## The files after the install -/

theorem VersionEdit.foldl_removeFile (level : ℕ) (fs : List FileMetaData) (edit : VersionEdit) :
    (fs.foldl (fun edit f => edit.removeFile level f.number) edit).newFiles = edit.newFiles ∧
      ∀ p, p ∈ (fs.foldl (fun edit f => edit.removeFile level f.number) edit).deletedFiles ↔
        p ∈ edit.deletedFiles ∨ ∃ f ∈ fs, p = (level, f.number) := by
  induction fs generalizing edit with
  | nil => simp
  | cons f fs ih =>
    rw [List.foldl_cons]
    refine ⟨(ih _).1, fun p => ?_⟩
    rw [(ih _).2, VersionEdit.mem_removeFile, List.exists_mem_cons_iff]
    tauto

theorem VersionEdit.foldl_addFile (opts : Options) (level : ℕ) (os : List Output)
    (edit : VersionEdit) :
    (os.foldl (fun edit o => edit.addFile level (o.file opts)) edit).newFiles =
        edit.newFiles ++ os.map (fun o => (level, o.file opts)) ∧
      (os.foldl (fun edit o => edit.addFile level (o.file opts)) edit).deletedFiles =
        edit.deletedFiles := by
  induction os generalizing edit with
  | nil => simp
  | cons o os ih =>
    rw [List.foldl_cons]
    refine ⟨?_, (ih _).2⟩
    rw [(ih _).1]
    simp [VersionEdit.addFile]

/-- What the edit of a compaction deletes and adds. -/
theorem Compaction.installEdit_spec (opts : Options) (c : Compaction) (outputs : List Output) :
    (c.installEdit opts outputs).newFiles =
        outputs.map (fun o => (c.level + 1, o.file opts)) ∧
      ∀ p, p ∈ (c.installEdit opts outputs).deletedFiles ↔
        (∃ f ∈ c.inputs0, p = (c.level, f.number)) ∨
          ∃ f ∈ c.inputs1, p = (c.level + 1, f.number) := by
  unfold Compaction.installEdit
  refine ⟨?_, fun p => ?_⟩
  · rw [(VersionEdit.foldl_addFile _ _ _ _).1, (VersionEdit.foldl_removeFile _ _ _).1,
      (VersionEdit.foldl_removeFile _ _ _).1]
    rfl
  · rw [(VersionEdit.foldl_addFile _ _ _ _).2, (VersionEdit.foldl_removeFile _ _ _).2,
      (VersionEdit.foldl_removeFile _ _ _).2]
    simp [VersionEdit.setCompactPointer, VersionEdit.empty]

/-- The outputs of a compaction whose loop is done, and the tables once they are
    written under numbers that no file of the version has. -/
structure Compaction.Written (tables tables' : Tables) (files : Levels) (c : Compaction)
    (snapshot : ℕ) (outputs : List Output) : Prop where
  sublist : (outputs.flatMap (·.entries)).Sublist (inputEntries tables c)
  kept : ∀ e, e ∈ outputs.flatMap (·.entries) ↔ e ∈ inputEntries tables c ∧
    ¬ Shadowed snapshot (inputEntries tables c) e ∧ ¬ DeadTombstone c snapshot e
  outputOk : ∀ o ∈ outputs, OutputOk o
  nodup : (outputs.map (·.number)).Nodup
  fresh : ∀ o ∈ outputs, ∀ level, ∀ f ∈ files level, f.number ≠ o.number
  new : ∀ o ∈ outputs, tables' o.number = o.entries
  old : ∀ level, ∀ f ∈ files level, tables' f.number = tables f.number

section

variable {tables tables' : Tables} {v : VersionSet} {c : Compaction} {snapshot : ℕ}
  {outputs : List Output} (opts : Options) (hl : LevelsOk tables v.files)
  (hp : c.Pending tables v.files) (hw : c.Written tables tables' v.files snapshot outputs)

include hl hp hw

omit hl hp in
theorem Compaction.Written.fresh_edit : (c.installEdit opts outputs).Fresh v.files := by
  have hnew := (c.installEdit_spec opts outputs).1
  refine ⟨?_, fun level f hf hm => ?_⟩
  · have hnd := hw.nodup
    rw [List.Nodup, List.pairwise_map] at hnd
    rw [VersionEdit.addedPairs, hnew, List.map_map, List.Nodup, List.pairwise_map]
    exact hnd.imp fun hne heq => hne (Prod.mk.inj heq).2
  · rw [VersionEdit.addedPairs, hnew, List.map_map] at hm
    obtain ⟨o, ho, heq⟩ := List.mem_map.mp hm
    exact hw.fresh o ho level f hf (Prod.mk.inj heq).2.symm

/-- The inputs go and the outputs come. -/
theorem Compaction.Written.mem_files {level : ℕ} {f : FileMetaData} :
    f ∈ v.applyEdit (c.installEdit opts outputs) level ↔
      (f ∈ v.files level ∧ ¬ (level = c.level ∧ f ∈ c.inputs0) ∧
        ¬ (level = c.level + 1 ∧ f ∈ c.inputs1)) ∨
      (level = c.level + 1 ∧ ∃ o ∈ outputs, f = o.file opts) := by
  obtain ⟨hnew, hdel⟩ := c.installEdit_spec opts outputs
  rw [VersionSet.mem_applyEdit (hw.fresh_edit opts), hnew, hdel]
  -- a deletion names a file by its number, which is its own
  have hnum : f ∈ v.files level →
      (((∃ g ∈ c.inputs0, (level, f.number) = (c.level, g.number)) ∨
        ∃ g ∈ c.inputs1, (level, f.number) = (c.level + 1, g.number)) ↔
      (level = c.level ∧ f ∈ c.inputs0) ∨ (level = c.level + 1 ∧ f ∈ c.inputs1)) := by
    intro hf
    constructor
    · rintro (⟨g, hg, heq⟩ | ⟨g, hg, heq⟩)
      · obtain ⟨rfl, hn⟩ := Prod.mk.inj heq
        exact Or.inl ⟨rfl, (hl.number_injOn hf (hp.sub0 g hg) hn).2 ▸ hg⟩
      · obtain ⟨rfl, hn⟩ := Prod.mk.inj heq
        exact Or.inr ⟨rfl, (hl.number_injOn hf (hp.sub1 g hg) hn).2 ▸ hg⟩
    · rintro (⟨rfl, hg⟩ | ⟨rfl, hg⟩)
      · exact Or.inl ⟨f, hg, rfl⟩
      · exact Or.inr ⟨f, hg, rfl⟩
  constructor
  · rintro ⟨-, ⟨hf, hnot⟩ | hm⟩
    · rw [hnum hf] at hnot
      exact Or.inl ⟨hf, fun h => hnot (Or.inl h), fun h => hnot (Or.inr h)⟩
    · obtain ⟨o, ho, heq⟩ := List.mem_map.mp hm
      obtain ⟨rfl, rfl⟩ := Prod.mk.inj heq
      exact Or.inr ⟨rfl, o, ho, rfl⟩
  · rintro (⟨hf, h0, h1⟩ | ⟨rfl, o, ho, rfl⟩)
    · refine ⟨hl.level_lt level f hf, Or.inl ⟨hf, ?_⟩⟩
      rw [hnum hf]
      exact fun h => h.elim h0 h1
    · exact ⟨hp.level_lt, Or.inr (List.mem_map.mpr ⟨o, ho, rfl⟩)⟩

omit hl hp in
theorem Compaction.Written.mem_input {o : Output} (ho : o ∈ outputs) {e : Entry}
    (he : e ∈ o.entries) : e ∈ inputEntries tables c :=
  hw.sublist.subset (List.mem_flatMap.mpr ⟨o, ho, he⟩)

/-! ## What the version shows -/

/-- The entries dropped. -/
theorem Compaction.Written.contents_eq :
    contents tables' (v.applyEdit (c.installEdit opts outputs)) =
      contents tables v.files \ {e | e ∈ inputEntries tables c ∧
        e ∉ outputs.flatMap (·.entries)} := by
  ext e
  constructor
  · rintro ⟨level, f, hf, he⟩
    rcases (hw.mem_files opts hl hp).mp hf with ⟨hf, hf0, hf1⟩ | ⟨rfl, o, ho, rfl⟩
    · rw [hw.old level f hf] at he
      refine ⟨⟨level, f, hf, he⟩, ?_⟩
      rintro ⟨hin, -⟩
      obtain ⟨g, heg, ⟨hg, hgi⟩ | ⟨hg, hgi⟩⟩ := hp.exists_input hl hin
      · obtain ⟨rfl, rfl, -⟩ := hl.eq_of_key_eq hf hg he heg rfl
        exact hf0 ⟨rfl, hgi⟩
      · obtain ⟨rfl, rfl, -⟩ := hl.eq_of_key_eq hf hg he heg rfl
        exact hf1 ⟨rfl, hgi⟩
    · have heo : e ∈ o.entries := hw.new o ho ▸ he
      obtain ⟨g, heg, ⟨hg, -⟩ | ⟨hg, -⟩⟩ := hp.exists_input hl (hw.mem_input ho heo)
      · exact ⟨⟨_, g, hg, heg⟩, fun h => h.2 (List.mem_flatMap.mpr ⟨o, ho, heo⟩)⟩
      · exact ⟨⟨_, g, hg, heg⟩, fun h => h.2 (List.mem_flatMap.mpr ⟨o, ho, heo⟩)⟩
  · rintro ⟨⟨level, f, hf, he⟩, hnot⟩
    by_cases hin : (level = c.level ∧ f ∈ c.inputs0) ∨ (level = c.level + 1 ∧ f ∈ c.inputs1)
    · have hmem : e ∈ inputEntries tables c := by
        rw [(hp.inputEntries_spec hl).2]
        rcases hin with ⟨-, hfi⟩ | ⟨-, hfi⟩
        · exact ⟨f, List.mem_append_left _ hfi, he⟩
        · exact ⟨f, List.mem_append_right _ hfi, he⟩
      have hkept : e ∈ outputs.flatMap (·.entries) := by
        by_contra hn
        exact hnot ⟨hmem, hn⟩
      obtain ⟨o, ho, heo⟩ := List.mem_flatMap.mp hkept
      refine ⟨c.level + 1, o.file opts, (hw.mem_files opts hl hp).mpr (Or.inr ⟨rfl, o, ho, rfl⟩), ?_⟩
      exact (hw.new o ho).symm ▸ heo
    · refine ⟨level, f, (hw.mem_files opts hl hp).mpr (Or.inl ⟨hf, fun h => hin (Or.inl h),
        fun h => hin (Or.inr h)⟩), ?_⟩
      rwa [hw.old level f hf]

/-- **No view from the snapshot on changes.** -/
theorem Compaction.Written.shows_iff {s : ℕ} (hs : snapshot ≤ s) (u val : Bytes) :
    Entry.versioning.Shows (contents tables' (v.applyEdit (c.installEdit opts outputs))) u s val ↔
      Entry.versioning.Shows (contents tables v.files) u s val := by
  rw [hw.contents_eq opts hl hp]
  refine Lib.Versioning.shows_diff_iff hl.finite_contents hl.key_injOn ?_ hs
  rintro r ⟨hr, hrn⟩ -
  have hdrop : Shadowed snapshot (inputEntries tables c) r ∨ DeadTombstone c snapshot r := by
    by_contra hn
    rw [not_or] at hn
    exact hrn ((hw.kept r).mpr ⟨hr, hn.1, hn.2⟩)
  rcases hdrop with ⟨p, hpm, hpu, hpk, hps⟩ | hdead
  · refine Or.inl ⟨p, ?_, hpu, hpk, hps⟩
    obtain ⟨g, hpg, ⟨hg, -⟩ | ⟨hg, -⟩⟩ := hp.exists_input hl hpm
    · exact ⟨_, g, hg, hpg⟩
    · exact ⟨_, g, hg, hpg⟩
  · refine Or.inr ⟨hdead.1, fun e he heu hek => ?_⟩
    have hin := hp.older_in_inputs hl hr hdead he heu hek
    exact ⟨hin, fun hk => ((hw.kept e).mp hk).2.1 ⟨r, hr, heu.symm, hek, hdead.2.1⟩⟩

end

end Ambar
