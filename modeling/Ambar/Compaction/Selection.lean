import Ambar.Compaction.Inputs

/-!
# What a compaction takes in

`pick_compaction` and `compact_range` build the inputs in stages (`src/version_set.cpp`,
lines 1023–1216): a first file or range, at level 0 everything that overlaps it, the
boundary files, what overlaps below and its boundary files, and possibly a wider upper
level.

* `aside_overlap`: at level 0 a file left behind lies beside the whole range.
* `Compaction.Selected`: what the stages leave together.
* `compaction_selected`: every compaction is so.
* `newer_file_left`: below level 0 a file with newer versions of the last user key may stay.
-/

namespace Ambar

/-- The inputs of a compaction of the levels `files`; `s` and `l` are the ends of
    `inputs_[0]`. -/
structure Compaction.Selected (files : Levels) (c : Compaction) (s l : InternalKey) : Prop where
  range : getRange c.inputs0 = some (s, l)
  sublist0 : c.inputs0.Sublist (files c.level)
  sublist1 : c.inputs1.Sublist (files (c.level + 1))
  level0 : c.level = 0 → ∀ f ∈ files 0, f ∉ c.inputs0 →
    f.largest.userKey < s.userKey ∨ l.userKey < f.smallest.userKey
  boundary0 : 0 < c.level → ∀ f ∈ files c.level, f ∉ c.inputs0 → l < f.smallest →
    f.smallest.userKey ≠ l.userKey
  overlap1 : ∀ f ∈ files (c.level + 1), s.userKey ≤ f.largest.userKey →
    f.smallest.userKey ≤ l.userKey → f ∈ c.inputs1
  boundary1 : ∀ s₁ l₁, getRange c.inputs1 = some (s₁, l₁) → ∀ f ∈ files (c.level + 1),
    f ∉ c.inputs1 → f.smallest.userKey ≠ l₁.userKey
  aside1 : ∀ a z, getRange (c.inputs0 ++ c.inputs1) = some (a, z) → ∀ f ∈ files (c.level + 1),
    f ∉ c.inputs1 → f.largest < a ∨ z < f.smallest

/-- At level 0 a file that is not taken in lies before all that are, or after all. -/
theorem aside_overlap {files : List FileMetaData} (b e : Option InternalKey) {f : FileMetaData}
    (hf : f ∈ files) (hfn : f ∉ getOverlappingInputs 0 files b e) :
    (∀ g ∈ getOverlappingInputs 0 files b e, f.largest.userKey < g.smallest.userKey) ∨
    ∀ g ∈ getOverlappingInputs 0 files b e, g.largest.userKey < f.smallest.userKey := by
  obtain ⟨b', e', -, hS, hin⟩ := @getOverlappingInputs_zero files (fun _ _ => True)
    b e trivial (fun _ _ _ _ _ _ _ _ => trivial)
  rw [hS] at hfn ⊢
  have hinside : ∀ g ∈ files.filter (meets b' e'), within b' e' g = true := fun g hg =>
    hin g (List.mem_filter.mp hg).1 (List.mem_filter.mp hg).2
  have hfm : meets b' e' f ≠ true := fun h => hfn (List.mem_filter.mpr ⟨hf, h⟩)
  simp only [meets, within, Bool.and_eq_true, Bool.not_eq_true', not_and_or, ne_eq] at hfm hinside
  rcases hfm with hafter | hbefore
  · left
    intro g hg
    cases b' with
    | none => simp [afterFile] at hafter
    | some u =>
      have hg' := (hinside g hg).1
      simp only [afterFile, Option.any_some, decide_eq_false_iff_not, not_lt, not_le] at hafter hg'
      exact hafter.trans_le hg'
  · right
    intro g hg
    cases e' with
    | none => simp [beforeFile] at hbefore
    | some u =>
      have hg' := (hinside g hg).2
      simp only [beforeFile, Option.any_some, decide_eq_false_iff_not, not_lt, not_le] at hbefore hg'
      exact hg'.trans_lt hbefore

/-- At level 0 `compact_range` starts with all files of its range. -/
theorem compactRange_zero {opts : Options} {v : VersionSet} {b e : Option InternalKey} {c : Compaction}
    (h : compactRange opts v 0 b e = some c) :
    getOverlappingInputs 0 (v.files 0) b e ≠ [] ∧
      setupOtherInputs opts v.files 0 (getOverlappingInputs 0 (v.files 0) b e) = some c := by
  unfold compactRange at h
  cases hS : getOverlappingInputs 0 (v.files 0) b e with
  | nil =>
    rw [hS] at h
    cases h
  | cons f fs =>
    rw [hS] at h
    exact ⟨List.cons_ne_nil f fs, h⟩

/-- The files `pick_compaction` and `compact_range` start with; at level 0 they are all
    files of a range. -/
theorem exists_start {opts : Options} {v : VersionSet} {c : Compaction}
    (hd : ∀ level, 0 < level → Disjoint (v.files level))
    (hp : ∀ level, ∀ f ∈ v.files level, f.smallest ≤ f.largest) (hs : v.SeeksOk)
    (h : pickCompaction opts v = some c ∨
      ∃ level begin_ end_, compactRange opts v level begin_ end_ = some c) :
    ∃ level chosen, Chosen level (v.files level) chosen ∧
      (level = 0 → ∃ b e, chosen = getOverlappingInputs 0 (v.files 0) b e) ∧
      setupOtherInputs opts v.files level chosen = some c := by
  rcases h with h | ⟨level, b, e, h⟩
  · obtain ⟨level, f, hf, -, h⟩ := pickCompaction_eq hs h
    refine ⟨level, _, chosen_seedInputs hd hp hf, ?_, h⟩
    rintro rfl
    exact ⟨some f.smallest, some f.largest, by rw [seedInputs, if_pos rfl]⟩
  · rcases Nat.eq_zero_or_pos level with rfl | hpos
    · obtain ⟨hne, hsetup⟩ := compactRange_zero h
      exact ⟨0, _, chosen_overlap (hd 0) (hp 0) hne, fun _ => ⟨b, e, rfl⟩, hsetup⟩
    · obtain ⟨chosen, hchosen, hsetup⟩ := compactRange_eq hd hp h
      exact ⟨level, chosen, hchosen, fun h0 => absurd h0 hpos.ne', hsetup⟩

/-- A level-0 start is complete: no boundary file is added to it. -/
theorem addBoundaryInputs_level0 {files : List FileMetaData} (hp : ∀ f ∈ files, f.smallest ≤ f.largest)
    (b e : Option InternalKey) :
    addBoundaryInputs files (getOverlappingInputs 0 files b e) = getOverlappingInputs 0 files b e := by
  rw [addBoundaryInputs]
  split
  · rfl
  next s l hr =>
  have hrange := getRange_isRange hr
  obtain ⟨g, hg, rfl⟩ := hrange.exists_largest
  have hnone : files.find? (fun f => decide (g.largest < f.smallest) &&
      decide (f.smallest.userKey = g.largest.userKey)) = none := by
    refine List.find?_eq_none.mpr fun f hf => ?_
    simp only [Bool.and_eq_true, decide_eq_true_eq, not_and]
    intro hlt hu
    by_cases hfn : f ∈ getOverlappingInputs 0 files b e
    · exact absurd (hlt.trans_le ((hp f hf).trans (hrange.le_largest f hfn))) (lt_irrefl _)
    · have hfu := InternalKey.userKey_le_of_le (hp f hf)
      have hgu := InternalKey.userKey_le_of_le (hp g (getOverlappingInputs_subset 0 files b e g hg))
      rcases aside_overlap b e hf hfn with hbefore | hafter
      · exact absurd ((hbefore g hg).trans_le (hgu.trans (hu.ge.trans hfu))) (lt_irrefl _)
      · exact absurd (hafter g hg) (by rw [hu]; exact lt_irrefl _)
  cases files.length with
  | zero => rfl
  | succ n => rw [boundaryLoop, hnone]

theorem subset_boundaryLoop (levelFiles : List FileMetaData) :
    ∀ (fuel : ℕ) (largest : InternalKey) (chosen : List FileMetaData),
      chosen ⊆ boundaryLoop levelFiles fuel largest chosen := by
  intro fuel
  induction fuel with
  | zero => exact fun _ _ => List.Subset.refl _
  | succ fuel ih =>
    intro largest chosen
    rw [boundaryLoop]
    split
    · exact List.Subset.refl _
    · exact List.Subset.trans (List.subset_append_left _ _) (ih _ _)

theorem subset_addBoundaryInputs (levelFiles chosen : List FileMetaData) :
    chosen ⊆ addBoundaryInputs levelFiles chosen := by
  rw [addBoundaryInputs]
  split
  · exact List.Subset.refl _
  · exact subset_boundaryLoop _ _ _ _

/-- The lower inputs, if any, reach into the range. -/
theorem le_largest_of_overlapWithBoundary {level : ℕ} (hl : 0 < level) {files : List FileMetaData}
    {s l s₁ l₁ : InternalKey} (h : getRange (overlapWithBoundary level files s l) = some (s₁, l₁)) :
    s.userKey ≤ l₁.userKey := by
  obtain ⟨g, hg⟩ := List.exists_mem_of_ne_nil _ (ne_nil_of_getRange h)
  have hmeets := hg
  rw [getOverlappingInputs_of_pos hl] at hmeets
  have hrange := getRange_isRange h
  exact (meets_some.mp (List.mem_filter.mp hmeets).2).1.trans
    (InternalKey.userKey_le_of_le (hrange.le_largest g (subset_addBoundaryInputs _ _ hg)))

section

variable {opts : Options} {files : Levels} {level : ℕ}
  (hd : ∀ level, 0 < level → Disjoint (files level))
  (hp : ∀ level, ∀ f ∈ files level, f.smallest ≤ f.largest)

include hd hp

/-- Settled inputs from a start that is complete at level 0. -/
theorem makeCompaction_selected {start : List FileMetaData} {s l : InternalKey} (k : InternalKey)
    (hstart : Chosen level (files level) start)
    (hzero : level = 0 → ∃ b e, start = getOverlappingInputs 0 (files 0) b e)
    (hr : getRange (addBoundaryInputs (files level) start) = some (s, l)) :
    (makeCompaction opts files level (addBoundaryInputs (files level) start)
      (overlapWithBoundary (level + 1) (files (level + 1)) s l) k).Selected files s l := by
  have hrange := getRange_isRange hr
  have hupper := upperInputs_of_chosen (hd level) (hp level) hstart
  have hlower := lowerInputs_overlap (Nat.succ_pos level) (hd (level + 1) (Nat.succ_pos _))
    (hp (level + 1)) s l
  refine ⟨hr, hupper.sublist, hlower.sublist, ?_, ?_, ?_, ?_, ?_⟩
  · -- at level 0 the start is everything that meets a range
    rintro rfl f hf hfn
    obtain ⟨b, e, rfl⟩ := hzero rfl
    simp only [makeCompaction, addBoundaryInputs_level0 (hp 0) b e] at hfn hrange
    rcases aside_overlap b e hf hfn with hbefore | hafter
    · obtain ⟨g, hg, rfl⟩ := hrange.exists_smallest
      exact Or.inl (hbefore g hg)
    · obtain ⟨g, hg, rfl⟩ := hrange.exists_largest
      exact Or.inr (hafter g hg)
  · intro _ f hf hfn hlt
    obtain ⟨g, hg, rfl⟩ := hrange.exists_largest
    rcases hupper.notOlder f hf hfn g hg with hbefore | hafter
    · have hgf := hbefore.trans_le ((hp level g (hupper.sublist.subset hg)).trans hlt.le)
      exact absurd (hgf.trans_le (hp level f hf)) (lt_irrefl _)
    · exact hafter.ne'
  · intro f hf hs hl
    by_contra hfn
    rcases hlower.aside f hf hfn with ⟨hbefore, -⟩ | ⟨hafter, -⟩
    · exact absurd hs (not_le.mpr hbefore)
    · exact absurd hl (not_le.mpr hafter)
  · intro s₁ l₁ hr₁ f hf hfn
    rcases hlower.aside f hf hfn with ⟨hbefore, -⟩ | ⟨-, hafter⟩
    · have hreach := le_largest_of_overlapWithBoundary (Nat.succ_pos level) hr₁
      exact ((InternalKey.userKey_le_of_le (hp (level + 1) f hf)).trans_lt
        (hbefore.trans_le hreach)).ne
    · obtain ⟨g, hg, rfl⟩ := (getRange_isRange hr₁).exists_largest
      exact (hafter g hg).ne'
  · intro a z haz f hf hfn
    have hall := getRange_isRange haz
    rcases hlower.aside f hf hfn with ⟨hbefore, hbefore₁⟩ | ⟨hafter, hafter₁⟩
    · obtain ⟨g, hg, rfl⟩ := hall.exists_smallest
      rcases List.mem_append.mp hg with hg | hg
      · exact Or.inl (InternalKey.lt_of_userKey_lt
          (hbefore.trans_le (InternalKey.userKey_le_of_le (hrange.smallest_le g hg))))
      · exact Or.inl (hbefore₁ g hg)
    · obtain ⟨g, hg, rfl⟩ := hall.exists_largest
      rcases List.mem_append.mp hg with hg | hg
      · exact Or.inr (InternalKey.lt_of_userKey_lt
          ((InternalKey.userKey_le_of_le (hrange.le_largest g hg)).trans_lt hafter))
      · exact Or.inr (InternalKey.lt_of_userKey_lt (hafter₁ g hg))

end

/-- **What a compaction takes in.** On every version whose levels below 0 are sorted and
    disjoint and whose files begin before they end, the inputs of every compaction that
    `pick_compaction` or `compact_range` returns are selected as above, and no file is among
    them twice. -/
theorem compaction_selected {opts : Options} {v : VersionSet} {c : Compaction}
    (hd : ∀ level, 0 < level → Disjoint (v.files level))
    (hp : ∀ level, ∀ f ∈ v.files level, f.smallest ≤ f.largest)
    (hn : ∀ level, (v.files level).Nodup) (hs : v.SeeksOk)
    (h : pickCompaction opts v = some c ∨
      ∃ level begin_ end_, compactRange opts v level begin_ end_ = some c) :
    ∃ s l, c.Selected v.files s l ∧ c.inputs0.Nodup ∧ c.inputs1.Nodup := by
  obtain ⟨level, chosen, hchosen, hzero, hsetup⟩ := exists_start hd hp hs h
  obtain ⟨start, s, l, k, hstart, hr, rfl⟩ := setupOtherInputs_eq hsetup
  have hstart' : Chosen level (v.files level) start ∧
      (level = 0 → ∃ b e, start = getOverlappingInputs 0 (v.files 0) b e) := by
    rcases hstart with rfl | ⟨_, _, as, al, -, -, rfl⟩
    · exact ⟨hchosen, hzero⟩
    · refine ⟨chosen_overlap (hd level) (hp level) (ne_nil_of_getRange hr), ?_⟩
      rintro rfl
      exact ⟨some as, some al, rfl⟩
  have hsel := @makeCompaction_selected opts v.files level hd hp start s l k hstart'.1 hstart'.2 hr
  exact ⟨s, l, hsel, hsel.sublist0.nodup (hn level), hsel.sublist1.nodup (hn (level + 1))⟩

/-- Two files of level 1 with versions of one user key, the first with the newer ones; the
    second is marked by seeks. -/
def splitKey : VersionSet :=
  { VersionSet.init with
    files := fun level => if level = 1 then
      [⟨4, 10, makeInternalKey [97] 9 .value, makeInternalKey [97] 7 .value⟩,
        ⟨5, 10, makeInternalKey [97] 5 .value, makeInternalKey [97] 3 .value⟩] else []
    fileToCompact := some (1, ⟨5, 10, makeInternalKey [97] 5 .value, makeInternalKey [97] 3 .value⟩) }

/-- **A newer file stays.** Below level 0 a file left behind may begin with a version of the
    user key that ends the inputs: one that is newer. -/
theorem newer_file_left :
    ∃ c s l, pickCompaction ⟨1000, List.length, List.length⟩ splitKey = some c ∧ c.level = 1 ∧
      getRange c.inputs0 = some (s, l) ∧
      ∃ f ∈ splitKey.files 1, f ∉ c.inputs0 ∧ f.smallest.userKey = l.userKey := by
  have heval : ((pickCompaction ⟨1000, List.length, List.length⟩ splitKey).map fun c =>
      (c.level, c.inputs0)) = some (1, [⟨5, 10, makeInternalKey [97] 5 .value,
        makeInternalKey [97] 3 .value⟩]) := by decide +kernel
  obtain ⟨c, hc, heq⟩ := Option.map_eq_some_iff.mp heval
  obtain ⟨hlevel, hinputs⟩ := Prod.mk.inj heq
  exact ⟨c, makeInternalKey [97] 5 .value, makeInternalKey [97] 3 .value, hc, hlevel,
    by rw [hinputs]; rfl, _, List.mem_cons_self, by rw [hinputs]; decide, rfl⟩

theorem compaction_selected_splitKey :
    ∃ c s l, pickCompaction ⟨1000, List.length, List.length⟩ splitKey = some c ∧
      c.Selected splitKey.files s l := by
  have heval : (pickCompaction ⟨1000, List.length, List.length⟩ splitKey).isSome = true := by
    decide +kernel
  obtain ⟨c, hc⟩ := Option.isSome_iff_exists.mp heval
  have hfiles : ∀ (P : List FileMetaData → Prop), P (splitKey.files 1) → P [] →
      ∀ level, P (splitKey.files level) := by
    intro P h1 hnil level
    by_cases hl : level = 1
    · rw [hl]
      exact h1
    · rw [show splitKey.files level = [] from if_neg hl]
      exact hnil
  obtain ⟨s, l, hsel, -⟩ := compaction_selected
    (fun level _ => hfiles Disjoint (List.pairwise_pair.mpr (by decide)) List.Pairwise.nil level)
    (hfiles (fun files => ∀ f ∈ files, f.smallest ≤ f.largest) (by decide) (by simp))
    (hfiles List.Nodup (by decide) List.nodup_nil)
    (fun level f hf => by cases hf; exact ⟨by decide, by decide⟩) (.inl hc)
  exact ⟨c, s, l, hc, hsel⟩

end Ambar
