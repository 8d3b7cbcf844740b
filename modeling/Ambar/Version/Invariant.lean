import Ambar.Version.Builder

/-!
# What holds of a version

A version names table files; `Tables` says what each file number holds. The
structure `LevelsOk` collects what the engine relies on: every file's bounds are
the first and last key of its table, the files of a level are sorted by smallest
key and below level 0 disjoint, and of two versions of one user key the newer
one lies above the older one: in a lower level, or at level 0 in the file of the
larger number.

* `FileOk.bounds`, `FileOk.proper`: what a file's bounds say about its entries.
* `Searchable.key_injOn`: no internal key is held twice.
-/

namespace Ambar

/-- What the table files hold, by file number. -/
abbrev Tables := ℕ → List Entry

/-- A table: strictly sorted, of well-formed keys, with the bounds the version
    records for it. -/
structure FileOk (tables : Tables) (f : FileMetaData) : Prop where
  sorted : Entry.Sorted (tables f.number)
  wellFormed : ∀ e ∈ tables f.number, e.key.WellFormed
  smallest : ((tables f.number).head?.map (·.key)) = some f.smallest
  largest : ((tables f.number).getLast?.map (·.key)) = some f.largest

namespace FileOk

variable {tables : Tables} {f : FileMetaData}

theorem exists_smallest (h : FileOk tables f) : ∃ e ∈ tables f.number, e.key = f.smallest := by
  obtain ⟨e, he, hk⟩ := Option.map_eq_some_iff.mp h.smallest
  exact ⟨e, List.mem_of_mem_head? he, hk⟩

theorem exists_largest (h : FileOk tables f) : ∃ e ∈ tables f.number, e.key = f.largest := by
  obtain ⟨e, he, hk⟩ := Option.map_eq_some_iff.mp h.largest
  exact ⟨e, List.mem_of_mem_getLast? he, hk⟩

theorem smallest_le (h : FileOk tables f) {e : Entry} (he : e ∈ tables f.number) :
    f.smallest ≤ e.key := by
  obtain ⟨e₀, he₀, hk⟩ := Option.map_eq_some_iff.mp h.smallest
  obtain ⟨rest, hrest⟩ := List.head?_eq_some_iff.mp he₀
  have hs := h.sorted
  rw [hrest] at he hs
  rcases List.mem_cons.mp he with rfl | he
  · exact hk.ge
  · exact hk ▸ ((List.pairwise_cons.mp hs).1 e he).le

theorem le_largest (h : FileOk tables f) {e : Entry} (he : e ∈ tables f.number) :
    e.key ≤ f.largest := by
  obtain ⟨e₀, he₀, hk⟩ := Option.map_eq_some_iff.mp h.largest
  obtain ⟨front, hfront⟩ := List.getLast?_eq_some_iff.mp he₀
  have hs := h.sorted
  rw [hfront] at he hs
  rcases List.mem_append.mp he with he | he
  · exact hk ▸ ((List.pairwise_append.mp hs).2.2 e he e₀ (by simp)).le
  · rw [List.mem_singleton.mp he, hk]

theorem proper (h : FileOk tables f) : f.Proper := by
  obtain ⟨a, ha, hka⟩ := h.exists_smallest
  obtain ⟨b, hb, hkb⟩ := h.exists_largest
  exact ⟨hkb ▸ h.smallest_le hb, hka ▸ h.wellFormed a ha, hkb ▸ h.wellFormed b hb⟩

/-- The user key of an entry lies in the file's user-key range. -/
theorem bounds (h : FileOk tables f) {e : Entry} (he : e ∈ tables f.number) :
    f.smallest.userKey ≤ e.userKey ∧ e.userKey ≤ f.largest.userKey :=
  ⟨InternalKey.userKey_le_of_le (h.smallest_le he), InternalKey.userKey_le_of_le (h.le_largest he)⟩

end FileOk

/-- Entries of a version. -/
def contents (tables : Tables) (files : Levels) : Set Entry :=
  {e | ∃ level, ∃ f ∈ files level, e ∈ tables f.number}

/-- Every version of a user key in `f` is newer than every one in `g`. -/
def NewerFile (tables : Tables) (f g : FileMetaData) : Prop :=
  ∀ a ∈ tables f.number, ∀ b ∈ tables g.number, a.userKey = b.userKey → a.key < b.key

/-- What a reader of the files of a version relies on. -/
structure Searchable (tables : Tables) (files : Levels) : Prop where
  fileOk : ∀ level, ∀ f ∈ files level, FileOk tables f
  level_lt : ∀ level, ∀ f ∈ files level, level < kNumLevels
  disjoint : ∀ level, 0 < level → Disjoint (files level)
  recency : ∀ i j, i < j → ∀ f ∈ files i, ∀ g ∈ files j, NewerFile tables f g
  level0 : ∀ f ∈ files 0, ∀ g ∈ files 0, g.number < f.number → NewerFile tables f g
  level0_number : ∀ f ∈ files 0, ∀ g ∈ files 0, f.number = g.number → f = g

/-- What holds of the files of a version. -/
structure LevelsOk (tables : Tables) (files : Levels) : Prop extends Searchable tables files where
  sorted : ∀ level, Lib.SortedBy bySmallestKey (files level)

namespace Searchable

variable {tables : Tables} {files : Levels}

/-- Two files of one level with entries of one user key are the same, or one is
    newer. -/
theorem newer_or_eq (h : Searchable tables files) {level : ℕ} {f g : FileMetaData}
    (hf : f ∈ files level) (hg : g ∈ files level) :
    f = g ∨ NewerFile tables f g ∨ NewerFile tables g f := by
  rcases Nat.eq_zero_or_pos level with rfl | hl
  · rcases lt_trichotomy f.number g.number with hn | hn | hn
    · exact Or.inr (Or.inr (h.level0 g hg f hf hn))
    · exact Or.inl (h.level0_number f hf g hg hn)
    · exact Or.inr (Or.inl (h.level0 f hf g hg hn))
  · have before : ∀ {f g : FileMetaData}, f ∈ files level → g ∈ files level →
        f.largest < g.smallest → NewerFile tables f g := by
      intro f g hf hg hlt a ha b hb _
      exact ((h.fileOk level f hf).le_largest ha).trans_lt
        (hlt.trans_le ((h.fileOk level g hg).smallest_le hb))
    rcases (h.disjoint level hl).trichotomy hf hg with heq | hlt | hlt
    · exact Or.inl heq
    · exact Or.inr (Or.inl (before hf hg hlt))
    · exact Or.inr (Or.inr (before hg hf hlt))

/-- Two files of a version are the same file of the same level, or one is newer. -/
theorem newer_or_same (h : Searchable tables files) {i j : ℕ} {f g : FileMetaData}
    (hf : f ∈ files i) (hg : g ∈ files j) :
    (i = j ∧ f = g) ∨ NewerFile tables f g ∨ NewerFile tables g f := by
  rcases lt_trichotomy i j with hij | rfl | hij
  · exact Or.inr (Or.inl (h.recency i j hij f hf g hg))
  · rcases h.newer_or_eq hf hg with heq | hnew
    · exact Or.inl ⟨rfl, heq⟩
    · exact Or.inr hnew
  · exact Or.inr (Or.inr (h.recency j i hij g hg f hf))

/-- An entry is in one file only, and an internal key in one entry. -/
theorem eq_of_key_eq (h : Searchable tables files) {i j : ℕ} {f g : FileMetaData}
    (hf : f ∈ files i) (hg : g ∈ files j) {a b : Entry} (ha : a ∈ tables f.number)
    (hb : b ∈ tables g.number) (hk : a.key = b.key) : i = j ∧ f = g ∧ a = b := by
  have hu : a.userKey = b.userKey := congrArg InternalKey.userKey hk
  rcases h.newer_or_same hf hg with ⟨hij, hfg⟩ | hnew | hnew
  · subst hfg
    exact ⟨hij, rfl, Lib.SortedBy.injOn (h.fileOk i f hf).sorted ha hb hk⟩
  · exact absurd (hnew a ha b hb hu) (by rw [hk]; exact lt_irrefl _)
  · exact absurd (hnew b hb a ha hu.symm) (by rw [hk]; exact lt_irrefl _)

theorem key_injOn (h : Searchable tables files) : Set.InjOn Entry.key (contents tables files) := by
  rintro a ⟨i, f, hf, ha⟩ b ⟨j, g, hg, hb⟩ hk
  exact (h.eq_of_key_eq hf hg ha hb hk).2.2

/-- A file is named once. -/
theorem number_injOn (h : Searchable tables files) {i j : ℕ} {f g : FileMetaData}
    (hf : f ∈ files i) (hg : g ∈ files j) (hn : f.number = g.number) : i = j ∧ f = g := by
  obtain ⟨e, he, -⟩ := (h.fileOk i f hf).exists_smallest
  obtain ⟨hij, hfg, -⟩ := h.eq_of_key_eq hf hg he (hn ▸ he) rfl
  exact ⟨hij, hfg⟩

theorem finite_contents (h : Searchable tables files) : (contents tables files).Finite := by
  have hsub : contents tables files ⊆
      ⋃ level ∈ Finset.range kNumLevels, ⋃ f ∈ (files level).toFinset,
        (↑(tables f.number).toFinset : Set Entry) := by
    rintro e ⟨level, f, hf, he⟩
    simp only [Set.mem_iUnion, Finset.mem_range, List.mem_toFinset, exists_prop]
    exact ⟨level, h.level_lt level f hf, f, hf, by simpa using he⟩
  refine Set.Finite.subset ?_ hsub
  refine Set.Finite.biUnion (Finset.finite_toSet _) fun level _ => ?_
  exact Set.Finite.biUnion (Finset.finite_toSet _) fun f _ => Finset.finite_toSet _

end Searchable

end Ambar
