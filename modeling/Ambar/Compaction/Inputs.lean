import Ambar.Version.Invariant

/-!
# The inputs of a compaction

Models of `pick_compaction`, `add_boundary_inputs`, `setup_other_inputs` and
`compact_range` (`src/version_set.cpp`, lines 715–742, 781–808, 1022–1216). The
scores of `finalize` are exact fractions.

* `addBoundaryInputs_segment`: on a disjoint level the boundary files extend a
  run of neighbours until the next file begins with another user key.
* `setupOtherInputs_closed`: the inputs are closed (`Compaction.Closed`): a file
  left behind holds no older version of a user key of the inputs, and a file
  left in the lower level lies wholly before or wholly after them.
-/

namespace Ambar

/-- The options the modelled code reads, and the answers of the parts left out:
    the size of a table under construction and of a finished one. -/
structure Options where
  maxFileSize : ℕ
  builderSize : List Entry → ℕ
  tableSize : List Entry → ℕ

/-- `class Compaction` (`src/version_set.hpp`, lines 271–335) as picked:
    `largest` is the compact pointer recorded in its edit. -/
structure Compaction where
  level : ℕ
  maxOutputFileSize : ℕ
  inputVersion : Levels
  inputs0 : List FileMetaData
  inputs1 : List FileMetaData
  grandparents : List FileMetaData
  largest : InternalKey

/-- `get_range` (lines 781–800); it is called on at least one file. -/
def getRange : List FileMetaData → Option (InternalKey × InternalKey)
  | [] => none
  | f :: fs => some (fs.foldl
      (fun r f => (if f.smallest < r.1 then f.smallest else r.1,
        if r.2 < f.largest then f.largest else r.2))
      (f.smallest, f.largest))

/-- The loop of `add_boundary_inputs` (lines 1101–1113). Every turn moves
    `largest` to a file that begins after it, so the number of files bounds the
    turns. -/
def boundaryLoop (levelFiles : List FileMetaData) :
    (fuel : ℕ) → InternalKey → List FileMetaData → List FileMetaData
  | 0, _, compactionFiles => compactionFiles
  | fuel + 1, largest, compactionFiles =>
    match levelFiles.find? fun f =>
      decide (largest < f.smallest) && decide (f.smallest.userKey = largest.userKey) with
    | none => compactionFiles
    | some f => boundaryLoop levelFiles fuel f.largest (compactionFiles ++ [f])

/-- `add_boundary_inputs` (lines 1087–1114). -/
def addBoundaryInputs (levelFiles compactionFiles : List FileMetaData) : List FileMetaData :=
  match getRange compactionFiles with
  | none => compactionFiles
  | some (_, largest) => boundaryLoop levelFiles levelFiles.length largest compactionFiles

/-- The files of a level that meet a range, with the boundary files, as
    `setup_other_inputs` takes them three times. -/
def overlapWithBoundary (level : ℕ) (files : List FileMetaData) (smallest largest : InternalKey) :
    List FileMetaData :=
  addBoundaryInputs files (getOverlappingInputs level files (some smallest) (some largest))

/-- The attempt of `setup_other_inputs` to widen the upper level for free
    (lines 1141–1173): the new inputs and the end of the new range. -/
def expandInputs (opts : Options) (files : Levels) (level : ℕ)
    (inputs0 inputs1 : List FileMetaData) (allStart allLimit : InternalKey) :
    Option (List FileMetaData × List FileMetaData × InternalKey) :=
  if inputs1 = [] then none
  else
    let expanded0 := overlapWithBoundary level (files level) allStart allLimit
    if inputs0.length < expanded0.length ∧
        totalFileSize inputs1 + totalFileSize expanded0 < 50 * opts.maxFileSize then
      match getRange expanded0 with
      | none => none
      | some (newStart, newLimit) =>
        let expanded1 := overlapWithBoundary (level + 1) (files (level + 1)) newStart newLimit
        if expanded1.length = inputs1.length then some (expanded0, expanded1, newLimit) else none
    else none

/-- The compaction of settled inputs, with the grandparents of its range
    (lines 1175–1186). -/
def makeCompaction (opts : Options) (files : Levels) (level : ℕ)
    (inputs0 inputs1 : List FileMetaData) (largest : InternalKey) : Compaction where
  level := level
  maxOutputFileSize := opts.maxFileSize
  inputVersion := files
  inputs0 := inputs0
  inputs1 := inputs1
  grandparents :=
    match getRange (inputs0 ++ inputs1) with
    | none => []
    | some (allStart, allLimit) =>
      if level + 2 < kNumLevels then
        getOverlappingInputs (level + 2) (files (level + 2)) (some allStart) (some allLimit)
      else []
  largest := largest

/-- `setup_other_inputs` (lines 1118–1187) from the files first chosen. -/
def setupOtherInputs (opts : Options) (files : Levels) (level : ℕ) (chosen : List FileMetaData) :
    Option Compaction :=
  let inputs0 := addBoundaryInputs (files level) chosen
  match getRange inputs0 with
  | none => none
  | some (smallest, largest) =>
    let inputs1 := overlapWithBoundary (level + 1) (files (level + 1)) smallest largest
    match getRange (inputs0 ++ inputs1) with
    | none => none
    | some (allStart, allLimit) =>
      match expandInputs opts files level inputs0 inputs1 allStart allLimit with
      | some (expanded0, expanded1, newLimit) =>
        some (makeCompaction opts files level expanded0 expanded1 newLimit)
      | none => some (makeCompaction opts files level inputs0 inputs1 largest)

/-! ## Choosing where to start -/

/-- The score of a level in `finalize` (lines 722–733), as a fraction: files over
    the trigger at level 0, bytes over the limit below. -/
def levelScore (files : Levels) (level : ℕ) : ℕ × ℕ :=
  if level = 0 then ((files 0).length, 4)
  else (totalFileSize (files level), 10 * 1048576 * 10 ^ (level - 1))

/-- `finalize` (lines 715–742): the first level of the largest score. -/
def compactionLevel (files : Levels) : ℕ :=
  (List.range (kNumLevels - 1)).foldl
    (fun best level =>
      if (levelScore files best).1 * (levelScore files level).2 <
          (levelScore files level).1 * (levelScore files best).2 then level else best) 0

/-- The level `pick_compaction` compacts by size and the file it starts with
    (lines 1031–1054): the first file past the compact pointer, or the first. -/
def sizeSeed (v : VersionSet) : Option (ℕ × FileMetaData) :=
  let level := compactionLevel v.files
  if (levelScore v.files level).2 ≤ (levelScore v.files level).1 then
    let past (f : FileMetaData) : Bool :=
      match v.compactPointer level with
      | none => true
      | some pointer => decide (pointer < f.largest)
    match (v.files level).find? past with
    | some f => some (level, f)
    | none => (v.files level).head?.map fun f => (level, f)
  else none

/-- The inputs `pick_compaction` chooses around its first file: at level 0 every
    file that overlaps it (lines 1065–1075). -/
def seedInputs (files : Levels) (level : ℕ) (f : FileMetaData) : List FileMetaData :=
  if level = 0 then getOverlappingInputs 0 (files 0) (some f.smallest) (some f.largest) else [f]

/-- `VersionSet::pick_compaction` (lines 1022–1079). -/
def pickCompaction (opts : Options) (v : VersionSet) : Option Compaction :=
  ((sizeSeed v).or v.fileToCompact).bind fun p =>
    setupOtherInputs opts v.files p.1 (seedInputs v.files p.1 p.2)

/-- The cut of a manual compaction below level 0 (lines 1198–1208): the files up to
    the first at which the total reaches `limit`. -/
def takeUpTo (limit : ℕ) : (total : ℕ) → List FileMetaData → List FileMetaData
  | _, [] => []
  | total, f :: files =>
    if limit ≤ total + f.fileSize then [f] else f :: takeUpTo limit (total + f.fileSize) files

/-- `VersionSet::compact_range` (lines 1189–1216). -/
def compactRange (opts : Options) (v : VersionSet) (level : ℕ) (begin_ end_ : Option InternalKey) :
    Option Compaction :=
  match getOverlappingInputs level (v.files level) begin_ end_ with
  | [] => none
  | f :: fs =>
    setupOtherInputs opts v.files level
      (if 0 < level then takeUpTo opts.maxFileSize 0 (f :: fs) else f :: fs)

/-- `Compaction::is_trivial_move` (lines 1261–1268). -/
def Compaction.isTrivialMove (c : Compaction) : Bool :=
  decide (c.inputs0.length = 1) && decide (c.inputs1.length = 0) &&
    decide (totalFileSize c.grandparents ≤ 10 * c.maxOutputFileSize)

/-! ## Ranges of files -/

/-- `(s, l)` is the hull of the files: the least smallest and the greatest largest
    key. -/
structure IsRange (files : List FileMetaData) (s l : InternalKey) : Prop where
  smallest_le : ∀ f ∈ files, s ≤ f.smallest
  le_largest : ∀ f ∈ files, f.largest ≤ l
  exists_smallest : ∃ f ∈ files, f.smallest = s
  exists_largest : ∃ f ∈ files, f.largest = l

theorem isRange_foldl (fs : List FileMetaData) :
    ∀ (acc : List FileMetaData) (r : InternalKey × InternalKey), IsRange acc r.1 r.2 →
      let r' := fs.foldl
        (fun r f => (if f.smallest < r.1 then f.smallest else r.1,
          if r.2 < f.largest then f.largest else r.2)) r
      IsRange (acc ++ fs) r'.1 r'.2 := by
  induction fs with
  | nil =>
    intro acc r h
    simpa using h
  | cons f fs ih =>
    intro acc r h
    rw [List.append_cons, List.foldl_cons]
    refine ih (acc ++ [f]) _ ⟨fun g hg => ?_, fun g hg => ?_, ?_, ?_⟩
    · rcases List.mem_append.mp hg with hg | hg
      · have := h.smallest_le g hg
        dsimp only
        split_ifs with hlt
        · exact hlt.le.trans this
        · exact this
      · rw [List.mem_singleton.mp hg]
        dsimp only
        split_ifs with hlt
        · exact le_rfl
        · exact not_lt.mp hlt
    · rcases List.mem_append.mp hg with hg | hg
      · have := h.le_largest g hg
        dsimp only
        split_ifs with hlt
        · exact this.trans hlt.le
        · exact this
      · rw [List.mem_singleton.mp hg]
        dsimp only
        split_ifs with hlt
        · exact le_rfl
        · exact not_lt.mp hlt
    · dsimp only
      split_ifs with hlt
      · exact ⟨f, by simp, rfl⟩
      · obtain ⟨g, hg, hk⟩ := h.exists_smallest
        exact ⟨g, List.mem_append_left _ hg, hk⟩
    · dsimp only
      split_ifs with hlt
      · exact ⟨f, by simp, rfl⟩
      · obtain ⟨g, hg, hk⟩ := h.exists_largest
        exact ⟨g, List.mem_append_left _ hg, hk⟩

theorem getRange_isRange {files : List FileMetaData} {s l : InternalKey}
    (h : getRange files = some (s, l)) : IsRange files s l := by
  cases files with
  | nil => cases h
  | cons f fs =>
    have := isRange_foldl fs [f] (f.smallest, f.largest)
      ⟨by simp, by simp, ⟨f, by simp, rfl⟩, ⟨f, by simp, rfl⟩⟩
    simp only [getRange, Option.some.injEq] at h
    rw [h] at this
    exact this

theorem getRange_eq_none {files : List FileMetaData} (h : getRange files = none) : files = [] := by
  cases files with
  | nil => rfl
  | cons f fs => cases h

/-! ## Runs of neighbours on a disjoint level -/

/-- The last of a run of neighbours has the greatest largest key. -/
theorem getRange_largest {pre run post : List FileMetaData} {last : FileMetaData}
    {s l : InternalKey} (hd : Disjoint (pre ++ (run ++ [last]) ++ post))
    (hp : ∀ f ∈ run ++ [last], f.smallest ≤ f.largest)
    (h : getRange (run ++ [last]) = some (s, l)) : l = last.largest := by
  have hr := getRange_isRange h
  refine le_antisymm ?_ (hr.le_largest last (by simp))
  obtain ⟨f, hf, rfl⟩ := hr.exists_largest
  rcases List.mem_append.mp hf with hf' | hf'
  · have hd' := (List.pairwise_append.mp (List.pairwise_append.mp hd).1).2.1
    exact ((List.pairwise_append.mp hd').2.2 f hf' last (by simp)).le.trans (hp last (by simp))
  · rw [List.mem_singleton.mp hf']

/-- The loop extends a run that ends with `last` by the files after it, up to the
    first that begins with another user key. -/
theorem boundaryLoop_segment {levelFiles : List FileMetaData} (hd : Disjoint levelFiles)
    (hp : ∀ f ∈ levelFiles, f.smallest ≤ f.largest) :
    ∀ (fuel : ℕ) (pre run : List FileMetaData) (last : FileMetaData) (post : List FileMetaData),
      levelFiles = pre ++ (run ++ [last]) ++ post → post.length ≤ fuel →
      ∃ ext post', boundaryLoop levelFiles fuel last.largest (run ++ [last]) =
          run ++ [last] ++ ext ∧ post = ext ++ post' ∧
        ∀ f ∈ post', ∀ g ∈ run ++ [last] ++ ext, g.largest.userKey < f.smallest.userKey := by
  intro fuel
  induction fuel with
  | zero =>
    intro pre run last post hl hf
    have : post = [] := List.eq_nil_of_length_eq_zero (by omega)
    subst this
    exact ⟨[], [], by simp [boundaryLoop], rfl, by simp⟩
  | succ fuel ih =>
    intro pre run last post hl hf
    subst hl
    have hlast : ∀ f ∈ pre ++ (run ++ [last]), f.smallest ≤ last.largest := by
      intro f hf
      have hfp := hp f (List.mem_append_left _ hf)
      have hd' := (List.pairwise_append.mp hd).1
      rw [← List.append_assoc] at hd' hf
      rcases List.mem_append.mp hf with hf | hf
      · have h1 := (List.pairwise_append.mp hd').2.2 f hf last (by simp)
        exact (hfp.trans h1.le).trans (hp last (by simp))
      · rw [List.mem_singleton.mp hf] at hfp ⊢
        exact hfp
    have hskip : (pre ++ (run ++ [last])).find? (fun f => decide (last.largest < f.smallest) &&
        decide (f.smallest.userKey = last.largest.userKey)) = none := by
      refine List.find?_eq_none.mpr fun f hf => ?_
      simp [not_lt.mpr (hlast f hf)]
    rw [boundaryLoop, List.find?_append, hskip, Option.none_or]
    cases post with
    | nil => exact ⟨[], [], by simp, rfl, by simp⟩
    | cons f rest =>
      have hlf : last.largest < f.smallest :=
        (List.pairwise_append.mp hd).2.2 last (by simp) f (by simp)
      by_cases hu : f.smallest.userKey = last.largest.userKey
      · -- the next file begins with the user key the run ends with
        rw [List.find?_cons_of_pos (by simp [hlf, hu])]
        obtain ⟨ext, post', h1, h2, h3⟩ := ih pre (run ++ [last]) f rest (by simp)
          (by simp at hf; omega)
        refine ⟨f :: ext, post', ?_, by simp [h2], ?_⟩
        · simpa using h1
        · simpa using h3
      · -- it does not, and neither does any file after it
        have hne : last.largest.userKey < f.smallest.userKey :=
          lt_of_le_of_ne (InternalKey.userKey_le_of_lt hlf) (Ne.symm hu)
        have hafter : ∀ g ∈ f :: rest, last.largest.userKey < g.smallest.userKey := by
          intro g hg
          rcases List.mem_cons.mp hg with rfl | hg
          · exact hne
          · have h1 := (List.pairwise_cons.mp (List.pairwise_append.mp hd).2.1).1 g hg
            exact hne.trans_le (InternalKey.userKey_le_of_lt
              ((hp f (by simp)).trans_lt h1))
        have hnone : (f :: rest).find? (fun f => decide (last.largest < f.smallest) &&
            decide (f.smallest.userKey = last.largest.userKey)) = none := by
          refine List.find?_eq_none.mpr fun g hg => ?_
          simp [(hafter g hg).ne']
        rw [hnone]
        refine ⟨[], f :: rest, by simp, rfl, fun g hg k hk => ?_⟩
        have hk' : k.largest.userKey ≤ last.largest.userKey := by
          rw [List.append_nil] at hk
          rcases List.mem_append.mp hk with hk' | hk'
          · have hd' := (List.pairwise_append.mp (List.pairwise_append.mp hd).1).2.1
            have := (List.pairwise_append.mp hd').2.2 k hk' last (by simp)
            exact InternalKey.userKey_le_of_le (this.le.trans (hp last (by simp)))
          · rw [List.mem_singleton.mp hk']
        exact hk'.trans_lt (hafter g hg)

/-- On a disjoint level the boundary files extend a run of neighbours until the
    next file begins with another user key. -/
theorem addBoundaryInputs_segment {files pre run post : List FileMetaData} (hd : Disjoint files)
    (hp : ∀ f ∈ files, f.smallest ≤ f.largest) (hl : files = pre ++ run ++ post) (hne : run ≠ []) :
    ∃ ext post', addBoundaryInputs files run = run ++ ext ∧ post = ext ++ post' ∧
      ∀ f ∈ post', ∀ g ∈ run ++ ext, g.largest.userKey < f.smallest.userKey := by
  obtain ⟨front, last, rfl⟩ : ∃ front last, run = front ++ [last] := by
    rcases List.eq_nil_or_concat run with h | ⟨front, last, h⟩
    · exact absurd h hne
    · exact ⟨front, last, by rw [h, List.concat_eq_append]⟩
  rw [addBoundaryInputs]
  cases hr : getRange (front ++ [last]) with
  | none => exact absurd (getRange_eq_none hr) hne
  | some r =>
    obtain ⟨s, l⟩ := r
    have hpr : ∀ f ∈ front ++ [last], f.smallest ≤ f.largest := fun f hf =>
      hp f (by rw [hl]; exact List.mem_append_left _ (List.mem_append_right _ hf))
    have hlast := getRange_largest (hl ▸ hd) hpr hr
    subst hlast
    exact boundaryLoop_segment hd hp _ pre front last post hl (by simp [hl]; omega)

/-- On a disjoint level the files that meet a range are neighbours. -/
theorem filter_meets_segment {files : List FileMetaData} (hd : Disjoint files)
    (hp : ∀ f ∈ files, f.smallest ≤ f.largest) (b e : Option Bytes) :
    ∃ pre post, files = pre ++ files.filter (meets b e) ++ post ∧
      (∀ f ∈ pre, afterFile b f = true) ∧ (∀ f ∈ post, beforeFile e f = true) := by
  induction files with
  | nil => exact ⟨[], [], by simp, by simp, by simp⟩
  | cons f rest ih =>
    obtain ⟨hf, hrest⟩ := List.pairwise_cons.mp hd
    have hpf := hp f (by simp)
    obtain ⟨pre, post, h1, h2, h3⟩ := ih hrest fun g hg => hp g (List.mem_cons_of_mem _ hg)
    by_cases ha : afterFile b f = true
    · refine ⟨f :: pre, post, ?_, fun g hg => ?_, h3⟩
      · rw [List.filter_cons_of_neg (by simp [meets, ha])]
        simpa using h1
      · rcases List.mem_cons.mp hg with rfl | hg
        · exact ha
        · exact h2 g hg
    · by_cases hb : beforeFile e f = true
      · -- the range ends before this file, so every later file is past it too
        have hall : ∀ g ∈ f :: rest, beforeFile e g = true := by
          intro g hg
          rcases List.mem_cons.mp hg with rfl | hg
          · exact hb
          · cases e with
            | none => simp [beforeFile] at hb
            | some u =>
              simp only [beforeFile, decide_eq_true_eq] at hb ⊢
              exact hb.trans_le (InternalKey.userKey_le_of_lt (hpf.trans_lt (hf g hg)))
        refine ⟨[], f :: rest, ?_, by simp, hall⟩
        rw [List.filter_eq_nil_iff.mpr fun g hg => by simp [meets, hall g hg]]
        simp
      · -- it meets the range, and no later file ends before the range begins
        have hpre : pre = [] := by
          refine List.eq_nil_iff_forall_not_mem.mpr fun g hg => ?_
          have hg' : g ∈ rest := h1 ▸ List.mem_append_left _ (List.mem_append_left _ hg)
          have hag := h2 g hg
          cases b with
          | none => simp [afterFile] at hag
          | some u =>
            simp only [afterFile, decide_eq_true_eq, not_lt] at hag ha
            exact absurd hag (not_lt.mpr (ha.trans (InternalKey.userKey_le_of_le
              ((hf g hg').le.trans (hp g (List.mem_cons_of_mem _ hg'))))))
        subst hpre
        refine ⟨[], post, ?_, by simp, h3⟩
        rw [List.filter_cons_of_pos (by simp [meets, ha, hb])]
        simpa using h1

/-! ## How the inputs are settled -/

/-- The inputs of a compaction come from a start: the files first chosen, or, where the
    upper level is widened, the files that meet the whole range these lead to. -/
theorem setupOtherInputs_eq {opts : Options} {files : Levels} {level : ℕ}
    {chosen : List FileMetaData} {c : Compaction}
    (h : setupOtherInputs opts files level chosen = some c) :
    ∃ start s l k,
      (start = chosen ∨ ∃ s₀ l₀ allStart allLimit,
        getRange (addBoundaryInputs (files level) chosen) = some (s₀, l₀) ∧
        getRange (addBoundaryInputs (files level) chosen ++
          overlapWithBoundary (level + 1) (files (level + 1)) s₀ l₀) = some (allStart, allLimit) ∧
        start = getOverlappingInputs level (files level) (some allStart) (some allLimit)) ∧
      getRange (addBoundaryInputs (files level) start) = some (s, l) ∧
      c = makeCompaction opts files level (addBoundaryInputs (files level) start)
        (overlapWithBoundary (level + 1) (files (level + 1)) s l) k := by
  unfold setupOtherInputs at h
  dsimp only at h
  split at h
  · cases h
  next s l hr =>
  split at h
  · cases h
  next as al har =>
  split at h
  · next e0 e1 nl hex =>
    cases h
    unfold expandInputs at hex
    split at hex
    · cases hex
    dsimp only at hex
    split at hex
    · split at hex
      · cases hex
      next ns nl' hre =>
      split at hex
      · cases hex
        exact ⟨_, ns, nl, nl, Or.inr ⟨s, l, as, al, hr, har, rfl⟩, hre, rfl⟩
      · cases hex
    · cases hex
  · cases h
    exact ⟨chosen, s, l, l, Or.inl rfl, hr, rfl⟩

theorem exists_getRange {files : List FileMetaData} (h : files ≠ []) : ∃ r, getRange files = some r :=
  Option.ne_none_iff_exists'.mp fun hr => h (getRange_eq_none hr)

theorem ne_nil_of_getRange {files start : List FileMetaData} {r : InternalKey × InternalKey}
    (h : getRange (addBoundaryInputs files start) = some r) : start ≠ [] := by
  rintro rfl
  cases h

/-! ## Closed inputs -/

/-- `f` holds no version of a user key of `g` that is older than those of `g`:
    it ends before `g`, or begins with a later user key. -/
def NotOlder (f g : FileMetaData) : Prop :=
  f.largest < g.smallest ∨ g.largest.userKey < f.smallest.userKey

theorem NotOlder.newerFile {tables : Tables} {f g : FileMetaData} (h : NotOlder f g)
    (hf : FileOk tables f) (hg : FileOk tables g) : NewerFile tables f g := by
  intro a ha b hb hu
  rcases h with h | h
  · exact (hf.le_largest ha).trans_lt (h.trans_le (hg.smallest_le hb))
  · have h1 := (hg.bounds hb).2.trans_lt (h.trans_le (hf.bounds ha).1)
    exact absurd hu h1.ne'

/-- The files a compaction starts with: at level 0 all files that share a user key
    with one of them, below it a run of neighbours. -/
structure Chosen (level : ℕ) (files chosen : List FileMetaData) : Prop where
  ne : chosen ≠ []
  level0 : level = 0 → chosen.Sublist files ∧ ∀ f ∈ files, f ∉ chosen → ∀ g ∈ chosen,
    f.largest.userKey < g.smallest.userKey ∨ g.largest.userKey < f.smallest.userKey
  below : 0 < level → ∃ pre post, files = pre ++ chosen ++ post

/-- The inputs of the upper level: no file left there holds an older version. -/
structure UpperInputs (files inputs : List FileMetaData) : Prop where
  sublist : inputs.Sublist files
  notOlder : ∀ f ∈ files, f ∉ inputs → ∀ g ∈ inputs, NotOlder f g

theorem addBoundaryInputs_ne_nil {files chosen : List FileMetaData} (h : chosen ≠ []) :
    addBoundaryInputs files chosen ≠ [] := by
  have hloop : ∀ fuel largest (acc : List FileMetaData), acc ≠ [] →
      boundaryLoop files fuel largest acc ≠ [] := by
    intro fuel
    induction fuel with
    | zero => exact fun _ _ h => h
    | succ fuel ih =>
      intro largest acc hacc
      rw [boundaryLoop]
      split
      · exact hacc
      · exact ih _ _ (by simp)
  rw [addBoundaryInputs]
  split
  · exact h
  · exact hloop _ _ _ h

/-- From at least one file there is a compaction, of that level and with at least one input. -/
theorem setupOtherInputs_total (opts : Options) (files : Levels) (level : ℕ)
    {chosen : List FileMetaData} (hne : chosen ≠ []) :
    ∃ c, setupOtherInputs opts files level chosen = some c ∧ c.level = level ∧ c.inputs0 ≠ [] := by
  have hinputs : addBoundaryInputs (files level) chosen ≠ [] := addBoundaryInputs_ne_nil hne
  obtain ⟨c, hc⟩ : ∃ c, setupOtherInputs opts files level chosen = some c := by
    obtain ⟨⟨s, l⟩, hr⟩ := exists_getRange hinputs
    obtain ⟨r, hall⟩ := exists_getRange (List.append_ne_nil_of_left_ne_nil hinputs
      (overlapWithBoundary (level + 1) (files (level + 1)) s l))
    unfold setupOtherInputs
    simp only [hr, hall]
    split
    · exact ⟨_, rfl⟩
    · exact ⟨_, rfl⟩
  obtain ⟨start, s, l, k, -, hr, rfl⟩ := setupOtherInputs_eq hc
  exact ⟨_, hc, rfl, addBoundaryInputs_ne_nil (ne_nil_of_getRange hr)⟩

theorem upperInputs_of_chosen {level : ℕ} {files chosen : List FileMetaData}
    (hd : 0 < level → Disjoint files) (hp : ∀ f ∈ files, f.smallest ≤ f.largest)
    (h : Chosen level files chosen) : UpperInputs files (addBoundaryInputs files chosen) := by
  rcases Nat.eq_zero_or_pos level with rfl | hl
  · -- at level 0 every file that shares a user key is there already
    obtain ⟨hsub, hclosed⟩ := h.level0 rfl
    have hsame : addBoundaryInputs files chosen = chosen := by
      rw [addBoundaryInputs]
      split
      · rfl
      · next s l hr =>
        have hrange := getRange_isRange hr
        cases hlen : files.length with
        | zero => rfl
        | succ n =>
          rw [boundaryLoop, List.find?_eq_none.mpr]
          intro f hf
          simp only [Bool.and_eq_true, decide_eq_true_eq, not_and]
          intro hlt hu
          obtain ⟨g, hg, rfl⟩ := hrange.exists_largest
          by_cases hfc : f ∈ chosen
          · exact absurd (hlt.trans_le ((hp f hf).trans (hrange.le_largest f hfc))) (lt_irrefl _)
          · have hfu := InternalKey.userKey_le_of_le (hp f hf)
            have hgu := InternalKey.userKey_le_of_le (hp g (hsub.subset hg))
            rcases hclosed f hf hfc g hg with h1 | h1
            · exact absurd (h1.trans_le (hgu.trans (hu.ge.trans hfu))) (lt_irrefl _)
            · exact absurd h1 (by rw [hu]; exact lt_irrefl _)
    rw [hsame]
    refine ⟨hsub, fun f hf hfc g hg => ?_⟩
    rcases hclosed f hf hfc g hg with h1 | h1
    · exact Or.inl (InternalKey.lt_of_userKey_lt h1)
    · exact Or.inr h1
  · obtain ⟨pre, post, hfiles⟩ := h.below hl
    obtain ⟨ext, post', h1, h2, h3⟩ := addBoundaryInputs_segment (hd hl) hp hfiles h.ne
    have hall : files = pre ++ (chosen ++ ext) ++ post' := by
      rw [hfiles, h2]
      simp
    rw [h1]
    refine ⟨?_, fun f hf hfn g hg => ?_⟩
    · rw [hall, List.append_assoc]
      exact (List.sublist_append_left _ _).trans (List.sublist_append_right _ _)
    · have hd' := hd hl
      rw [hall] at hf hd'
      rcases List.mem_append.mp hf with hf | hf
      · rcases List.mem_append.mp hf with hf | hf
        · exact Or.inl ((List.pairwise_append.mp (List.pairwise_append.mp hd').1).2.2 f hf g hg)
        · exact absurd hf hfn
      · exact Or.inr (h3 f hf g hg)

/-- The inputs of the lower level for the range `[s, l]`: a file left there lies
    before the range and the inputs, or after both and begins with a later user
    key. -/
structure LowerInputs (files inputs : List FileMetaData) (s l : InternalKey) : Prop where
  sublist : inputs.Sublist files
  aside : ∀ f ∈ files, f ∉ inputs →
    (f.largest.userKey < s.userKey ∧ ∀ g ∈ inputs, f.largest < g.smallest) ∨
    (l.userKey < f.smallest.userKey ∧ ∀ g ∈ inputs, g.largest.userKey < f.smallest.userKey)

theorem lowerInputs_overlap {level : ℕ} (hl : 0 < level) {files : List FileMetaData}
    (hd : Disjoint files) (hp : ∀ f ∈ files, f.smallest ≤ f.largest) (s l : InternalKey) :
    LowerInputs files (overlapWithBoundary level files s l) s l := by
  obtain ⟨pre, post, h1, h2, h3⟩ := filter_meets_segment hd hp (some s.userKey) (some l.userKey)
  simp only [afterFile, beforeFile, decide_eq_true_eq] at h2 h3
  rw [overlapWithBoundary, getOverlappingInputs_of_pos hl]
  simp only [Option.map_some]
  set run := files.filter (meets (some s.userKey) (some l.userKey)) with hrun
  by_cases hne : run = []
  · rw [hne] at h1 ⊢
    refine ⟨by simp [addBoundaryInputs, getRange], fun f hf _ => ?_⟩
    rw [h1, List.append_nil] at hf
    simp only [addBoundaryInputs, getRange, List.not_mem_nil, false_imp_iff, implies_true, and_true]
    rcases List.mem_append.mp hf with hf | hf
    · exact Or.inl (h2 f hf)
    · exact Or.inr (h3 f hf)
  · obtain ⟨ext, post', h4, h5, h6⟩ := addBoundaryInputs_segment hd hp h1 hne
    have hall : files = pre ++ (run ++ ext) ++ post' := by
      rw [h1, h5]
      simp
    rw [h4]
    refine ⟨?_, fun f hf hfn => ?_⟩
    · rw [hall, List.append_assoc]
      exact (List.sublist_append_left _ _).trans (List.sublist_append_right _ _)
    · rw [hall] at hf hd
      rcases List.mem_append.mp hf with hf | hf
      · rcases List.mem_append.mp hf with hf | hf
        · exact Or.inl ⟨h2 f hf, (List.pairwise_append.mp (List.pairwise_append.mp hd).1).2.2 f hf⟩
        · exact absurd hf hfn
      · exact Or.inr ⟨h3 f (h5 ▸ List.mem_append_right _ hf), h6 f hf⟩

/-- What the engine relies on in the inputs of a compaction of the levels `files`. -/
structure Compaction.Closed (files : Levels) (c : Compaction) : Prop where
  ne : c.inputs0 ≠ []
  sub0 : c.inputs0.Sublist (files c.level)
  sub1 : c.inputs1.Sublist (files (c.level + 1))
  upper : ∀ f ∈ files c.level, f ∉ c.inputs0 → ∀ g ∈ c.inputs0, NotOlder f g
  lower : ∀ f ∈ files (c.level + 1), f ∉ c.inputs1 →
    ((∀ g ∈ c.inputs0, f.largest.userKey < g.smallest.userKey) ∧
      ∀ g ∈ c.inputs1, f.largest < g.smallest) ∨
    ((∀ g ∈ c.inputs0, g.largest.userKey < f.smallest.userKey) ∧
      ∀ g ∈ c.inputs1, g.largest.userKey < f.smallest.userKey)

theorem makeCompaction_closed (opts : Options) {files : Levels} {level : ℕ}
    {inputs0 inputs1 : List FileMetaData} {s l k : InternalKey} (hne : inputs0 ≠ [])
    (h0 : UpperInputs (files level) inputs0)
    (h1 : LowerInputs (files (level + 1)) inputs1 s l) (hr : IsRange inputs0 s l) :
    (makeCompaction opts files level inputs0 inputs1 k).Closed files where
  ne := hne
  sub0 := h0.sublist
  sub1 := h1.sublist
  upper := h0.notOlder
  lower f hf hfn := by
    rcases h1.aside f hf hfn with ⟨h2, h3⟩ | ⟨h2, h3⟩
    · exact Or.inl ⟨fun g hg => h2.trans_le
        (InternalKey.userKey_le_of_le (hr.smallest_le g hg)), h3⟩
    · exact Or.inr ⟨fun g hg => lt_of_le_of_lt
        (InternalKey.userKey_le_of_le (hr.le_largest g hg)) h2, h3⟩

/-- The files of a range at level 0 or below are a choice to start with. -/
theorem chosen_overlap {level : ℕ} {files : List FileMetaData} (hd : 0 < level → Disjoint files)
    (hp : ∀ f ∈ files, f.smallest ≤ f.largest) {b e : Option InternalKey}
    (hne : getOverlappingInputs level files b e ≠ []) :
    Chosen level files (getOverlappingInputs level files b e) := by
  refine ⟨hne, fun h0 => ?_, fun hl => ?_⟩
  · subst h0
    obtain ⟨b', e', -, hS, hin⟩ := @getOverlappingInputs_zero files (fun _ _ => True)
      b e trivial (fun _ _ _ _ _ _ _ _ => trivial)
    rw [hS]
    refine ⟨List.filter_sublist, fun f hf hfn g hg => ?_⟩
    obtain ⟨hgf, hgm⟩ := List.mem_filter.mp hg
    have hgw := hin g hgf hgm
    have hfm : meets b' e' f ≠ true := fun h => hfn (List.mem_filter.mpr ⟨hf, h⟩)
    simp only [ne_eq, meets, within, Bool.and_eq_true, Bool.not_eq_true', not_and_or] at hfm hgw
    rcases hfm with h | h
    · left
      cases b' with
      | none => simp [afterFile] at h
      | some u =>
        simp only [afterFile, Option.any_some, decide_eq_false_iff_not, not_lt, not_le] at h hgw
        exact h.trans_le hgw.1
    · right
      cases e' with
      | none => simp [beforeFile] at h
      | some u =>
        simp only [beforeFile, Option.any_some, decide_eq_false_iff_not, not_lt, not_le] at h hgw
        exact hgw.2.trans_lt h
  · rw [getOverlappingInputs_of_pos hl]
    obtain ⟨pre, post, h, -, -⟩ := filter_meets_segment (hd hl) hp (b.map (·.userKey))
      (e.map (·.userKey))
    exact ⟨pre, post, h⟩

/-- The file a compaction starts with is among the inputs chosen around it: widening the range
    never loses it. -/
theorem mem_seedInputs {files : Levels} {level : ℕ} {f : FileMetaData} (hf : f ∈ files level)
    (hp : level = 0 → f.smallest.userKey ≤ f.largest.userKey) : f ∈ seedInputs files level f := by
  rcases Nat.eq_zero_or_pos level with rfl | hl
  · rw [seedInputs, if_pos rfl]
    have hfu := hp rfl
    obtain ⟨b, e, hm, hS, -⟩ := @getOverlappingInputs_zero (files 0)
      (fun b e => meets b e f = true) (some f.smallest) (some f.largest)
      (meets_some.mpr ⟨hfu, hfu⟩) (by
        rintro g - b e b' e' hm ⟨-, ⟨hw, rfl, rfl⟩ | ⟨hw, rfl, rfl⟩⟩
        · obtain ⟨u, rfl, hu⟩ := (Option.any_eq_true _ _).mp hw
          simp only [meets, afterFile, Bool.and_eq_true, Bool.not_eq_true', decide_eq_true_eq,
            decide_eq_false_iff_not, not_lt] at hm hu ⊢
          exact ⟨hu.le.trans hm.1, hm.2⟩
        · obtain ⟨u, rfl, hu⟩ := (Option.any_eq_true _ _).mp hw
          simp only [meets, beforeFile, Bool.and_eq_true, Bool.not_eq_true', decide_eq_true_eq,
            decide_eq_false_iff_not, not_lt] at hm hu ⊢
          exact ⟨hm.1, hm.2.trans hu.le⟩)
    rw [hS]
    exact List.mem_filter.mpr ⟨hf, hm⟩
  · rw [seedInputs, if_neg (by omega)]
    exact List.mem_singleton.mpr rfl

section

variable {opts : Options} {files : Levels} {level : ℕ} {c : Compaction}
  (hd : ∀ level, 0 < level → Disjoint (files level))
  (hp : ∀ level, ∀ f ∈ files level, f.smallest ≤ f.largest)

include hd hp

/-- The inputs of every compaction are closed. -/
theorem setupOtherInputs_closed {chosen : List FileMetaData}
    (hc : Chosen level (files level) chosen)
    (h : setupOtherInputs opts files level chosen = some c) :
    c.Closed files ∧ c.level = level ∧ c.inputVersion = files := by
  obtain ⟨start, s, l, k, hstart, hr, rfl⟩ := setupOtherInputs_eq h
  have hne := ne_nil_of_getRange hr
  have hchosen : Chosen level (files level) start := by
    rcases hstart with rfl | ⟨_, _, as, al, -, -, rfl⟩
    · exact hc
    · exact chosen_overlap (hd level) (hp level) hne
  exact ⟨makeCompaction_closed opts (addBoundaryInputs_ne_nil hne)
    (upperInputs_of_chosen (hd level) (hp level) hchosen)
    (lowerInputs_overlap (Nat.succ_pos level) (hd (level + 1) (Nat.succ_pos _)) (hp (level + 1)) s l)
    (getRange_isRange hr), rfl, rfl⟩

/-- The file a compaction starts with and, at level 0, all that overlap it. -/
theorem chosen_seedInputs {f : FileMetaData} (hf : f ∈ files level) :
    Chosen level (files level) (seedInputs files level f) := by
  have hmem := mem_seedInputs hf fun _ => InternalKey.userKey_le_of_le (hp level f hf)
  rcases Nat.eq_zero_or_pos level with rfl | hl
  · rw [seedInputs, if_pos rfl] at hmem ⊢
    exact chosen_overlap (hd 0) (hp 0) (List.ne_nil_of_mem hmem)
  · rw [seedInputs, if_neg (by omega)]
    refine ⟨by simp, fun h => absurd h (by omega), fun _ => ?_⟩
    obtain ⟨pre, post, h⟩ := List.append_of_mem hf
    exact ⟨pre, post, by simp [h]⟩

end

theorem compactionLevel_lt (files : Levels) : compactionLevel files + 1 < kNumLevels := by
  have hfold : ∀ (step : ℕ → ℕ → ℕ) (l : List ℕ) (b : ℕ), (∀ a x, step a x = x ∨ step a x = a) →
      (∀ x ∈ l, x < 6) → b < 6 → l.foldl step b < 6 := by
    intro step l
    induction l with
    | nil => exact fun b _ _ hb => hb
    | cons x l ih =>
      intro b hs hl hb
      refine ih _ hs (fun y hy => hl y (List.mem_cons_of_mem _ hy)) ?_
      rcases hs b x with h | h
      · rw [h]
        exact hl x (by simp)
      · rwa [h]
  have hlt : compactionLevel files < 6 := by
    unfold compactionLevel
    exact hfold _ _ 0 (fun _ _ => ite_eq_or_eq _ _ _) (fun x hx => List.mem_range.mp hx) (by omega)
  simp only [kNumLevels]
  omega

theorem sizeSeed_mem {v : VersionSet} {level : ℕ} {f : FileMetaData}
    (h : sizeSeed v = some (level, f)) : f ∈ v.files level ∧ level + 1 < kNumLevels := by
  unfold sizeSeed at h
  dsimp only at h
  split at h
  · split at h
    · next g hg =>
      simp only [Option.some.injEq, Prod.mk.injEq] at h
      obtain ⟨rfl, rfl⟩ := h
      exact ⟨List.mem_of_find?_eq_some hg, compactionLevel_lt v.files⟩
    · obtain ⟨g, hg, heq⟩ := Option.map_eq_some_iff.mp h
      rw [Prod.mk.injEq] at heq
      obtain ⟨rfl, rfl⟩ := heq
      exact ⟨List.mem_of_mem_head? hg, compactionLevel_lt v.files⟩
  · cases h

/-- The file marked by seeks is one of the version's, above the last level. -/
def VersionSet.SeeksOk (v : VersionSet) : Prop :=
  ∀ level f, v.fileToCompact = some (level, f) → f ∈ v.files level ∧ level + 1 < kNumLevels

/-- Every compaction `pick_compaction` returns starts with one file of a level. -/
theorem pickCompaction_eq {opts : Options} {v : VersionSet} {c : Compaction} (hs : v.SeeksOk)
    (h : pickCompaction opts v = some c) :
    ∃ level f, f ∈ v.files level ∧ level + 1 < kNumLevels ∧
      setupOtherInputs opts v.files level (seedInputs v.files level f) = some c := by
  obtain ⟨⟨level, f⟩, hseed, h⟩ := Option.bind_eq_some_iff.mp h
  refine ⟨level, f, ?_⟩
  rcases Option.or_eq_some_iff.mp hseed with h1 | ⟨-, h1⟩
  · exact ⟨(sizeSeed_mem h1).1, (sizeSeed_mem h1).2, h⟩
  · exact ⟨(hs level f h1).1, (hs level f h1).2, h⟩

theorem takeUpTo_take (limit : ℕ) (files : List FileMetaData) :
    ∀ total, ∃ n, takeUpTo limit total files = files.take (n + 1) := by
  induction files with
  | nil => exact fun total => ⟨0, by simp [takeUpTo]⟩
  | cons f files ih =>
    intro total
    rw [takeUpTo]
    split_ifs with h
    · exact ⟨0, by simp⟩
    · obtain ⟨n, hn⟩ := ih (total + f.fileSize)
      exact ⟨n + 1, by rw [hn, List.take_succ_cons]⟩

/-- The files `compact_range` starts with. -/
theorem compactRange_eq {opts : Options} {v : VersionSet} {level : ℕ} {b e : Option InternalKey}
    {c : Compaction} (hd : ∀ level, 0 < level → Disjoint (v.files level))
    (hp : ∀ level, ∀ f ∈ v.files level, f.smallest ≤ f.largest)
    (h : compactRange opts v level b e = some c) :
    ∃ chosen, Chosen level (v.files level) chosen ∧
      setupOtherInputs opts v.files level chosen = some c := by
  unfold compactRange at h
  split at h
  · cases h
  · next f fs hS =>
    refine ⟨_, ?_, h⟩
    have hc : Chosen level (v.files level) (f :: fs) := by
      rw [← hS]
      exact chosen_overlap (hd level) (hp level) (by simp [hS])
    split_ifs with hl
    · obtain ⟨n, hn⟩ := takeUpTo_take opts.maxFileSize (f :: fs) 0
      rw [hn]
      refine ⟨by simp, fun h0 => absurd h0 (by omega), fun _ => ?_⟩
      obtain ⟨pre, post, heq⟩ := hc.below hl
      refine ⟨pre, (f :: fs).drop (n + 1) ++ post, ?_⟩
      rw [heq, List.append_assoc, List.append_assoc, ← List.append_assoc (List.take _ _),
        List.take_append_drop]
    · exact hc

/-! ## The inputs are files of the version -/

theorem getOverlappingInputs_subset (level : ℕ) (files : List FileMetaData)
    (b e : Option InternalKey) : ∀ f ∈ getOverlappingInputs level files b e, f ∈ files := by
  rcases Nat.eq_zero_or_pos level with rfl | hl
  · obtain ⟨b', e', -, hS, -⟩ := @getOverlappingInputs_zero files (fun _ _ => True) b e trivial
      fun _ _ _ _ _ _ _ _ => trivial
    rw [hS]
    exact fun f hf => List.mem_of_mem_filter hf
  · rw [getOverlappingInputs_of_pos hl]
    exact fun f hf => List.mem_of_mem_filter hf

theorem boundaryLoop_subset (levelFiles : List FileMetaData) (fuel : ℕ) (largest : InternalKey)
    (chosen : List FileMetaData) :
    ∀ f ∈ boundaryLoop levelFiles fuel largest chosen, f ∈ chosen ∨ f ∈ levelFiles := by
  induction fuel generalizing largest chosen with
  | zero => exact fun f hf => Or.inl hf
  | succ fuel ih =>
    intro f hf
    rw [boundaryLoop] at hf
    split at hf
    · exact Or.inl hf
    · next g hg =>
      rcases ih _ _ f hf with hf | hf
      · rcases List.mem_append.mp hf with hf | hf
        · exact Or.inl hf
        · rw [List.mem_singleton.mp hf]
          exact Or.inr (List.mem_of_find?_eq_some hg)
      · exact Or.inr hf

theorem addBoundaryInputs_subset {levelFiles chosen : List FileMetaData}
    (h : ∀ f ∈ chosen, f ∈ levelFiles) : ∀ f ∈ addBoundaryInputs levelFiles chosen, f ∈ levelFiles := by
  intro f hf
  unfold addBoundaryInputs at hf
  split at hf
  · exact h f hf
  · exact (boundaryLoop_subset _ _ _ _ f hf).elim (h f) id

/-- The inputs of the upper level, whatever the order of the files. -/
theorem setupOtherInputs_subset {opts : Options} {files : Levels} {level : ℕ}
    {chosen : List FileMetaData} {c : Compaction} (hc : ∀ f ∈ chosen, f ∈ files level)
    (h : setupOtherInputs opts files level chosen = some c) :
    c.level = level ∧ ∀ f ∈ c.inputs0, f ∈ files level := by
  obtain ⟨start, s, l, k, hstart, -, rfl⟩ := setupOtherInputs_eq h
  refine ⟨rfl, addBoundaryInputs_subset ?_⟩
  rcases hstart with rfl | ⟨_, _, _, _, -, -, rfl⟩
  · exact hc
  · exact getOverlappingInputs_subset _ _ _ _

theorem pickCompaction_subset {opts : Options} {v : VersionSet} {c : Compaction} (hs : v.SeeksOk)
    (h : pickCompaction opts v = some c) : ∀ f ∈ c.inputs0, f ∈ v.files c.level := by
  obtain ⟨level, f, hf, -, h⟩ := pickCompaction_eq hs h
  have hchosen : ∀ g ∈ seedInputs v.files level f, g ∈ v.files level := by
    intro g hg
    unfold seedInputs at hg
    split_ifs at hg with hl
    · rw [hl]
      exact getOverlappingInputs_subset _ _ _ _ g hg
    · rw [List.mem_singleton.mp hg]
      exact hf
  obtain ⟨rfl, hsub⟩ := setupOtherInputs_subset hchosen h
  exact hsub

end Ambar
