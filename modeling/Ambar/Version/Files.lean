import Ambar.Lib.Search
import Ambar.Format.InternalKey

/-!
# The files of a level

Models of the file metadata of `src/version_edit.hpp` and of the searches over
one level in `src/version_set.cpp` (lines 38–106, 361–443). A version is the
list of files of each level; level 0's files overlap, the files of every level
below are disjoint and sorted (`Disjoint`).

* `findFile_split`: on a disjoint level the binary search splits the files into
  those that end before the key and the others.
* `someFileOverlapsRange_iff`: the overlap test agrees with checking every file.
* `getOverlappingInputs_of_pos`: below level 0 the inputs are the files that
  meet the range.
* `getOverlappingInputs_zero`: at level 0 they are the files that meet a
  widened range which no file outside them meets and none of them leaves.
-/

namespace Ambar

/-- `kNumLevels` (`src/version_set.hpp`, line 57). -/
def kNumLevels : ℕ := 7

/-- `kMaxMemCompactLevel` (`src/version_set.hpp`, line 78). -/
def kMaxMemCompactLevel : ℕ := 2

/-- `FileMetaData` (`src/version_edit.hpp`, lines 41–56): what is known about one
    table file without opening it. -/
structure FileMetaData where
  number : ℕ
  fileSize : ℕ
  smallest : InternalKey
  largest : InternalKey
deriving DecidableEq, Repr

/-- `Version::files_`: the files of each level. -/
abbrev Levels := ℕ → List FileMetaData

/-- `total_file_size` (lines 38–44). -/
def totalFileSize (files : List FileMetaData) : ℕ := (files.map (·.fileSize)).sum

/-- `after_file` (lines 48–53). -/
def afterFile (userKey : Option Bytes) (file : FileMetaData) : Bool :=
  match userKey with
  | none => false
  | some u => decide (file.largest.userKey < u)

/-- `before_file` (lines 55–60). -/
def beforeFile (userKey : Option Bytes) (file : FileMetaData) : Bool :=
  match userKey with
  | none => false
  | some u => decide (u < file.smallest.userKey)

/-- The file's user-key range meets `[smallest, largest]`; a null bound
    constrains nothing. -/
def meets (smallest largest : Option Bytes) (file : FileMetaData) : Bool :=
  !afterFile smallest file && !beforeFile largest file

theorem meets_some {s l : Bytes} {f : FileMetaData} :
    meets (some s) (some l) f = true ↔ s ≤ f.largest.userKey ∧ f.smallest.userKey ≤ l := by
  simp [meets, afterFile, beforeFile, not_lt]

/-- `find_file` (lines 63–77): index of the first file whose largest key is at or
    after `key`. -/
def findFile (files : List FileMetaData) (key : InternalKey) : ℕ :=
  Lib.lowerBound
    (fun i => match files[i]? with
      | some file => decide (file.largest < key)
      | none => false)
    files.length 0 files.length

/-- `some_file_overlaps_range` (lines 79–106). -/
def someFileOverlapsRange (disjointSortedFiles : Bool) (files : List FileMetaData)
    (smallestUserKey largestUserKey : Option Bytes) : Bool :=
  if disjointSortedFiles then
    let index := match smallestUserKey with
      | none => 0
      | some u => findFile files (makeInternalKey u kMaxSequenceNumber kValueTypeForSeek)
    match files[index]? with
    | none => false
    | some file => !beforeFile largestUserKey file
  else files.any (meets smallestUserKey largestUserKey)

/-! ## Disjoint levels -/

/-- A file whose bounds are a range of well-formed internal keys. -/
def FileMetaData.Proper (f : FileMetaData) : Prop :=
  f.smallest ≤ f.largest ∧ f.smallest.WellFormed ∧ f.largest.WellFormed

/-- The files of a level below 0: each ends before the next one begins. -/
def Disjoint (files : List FileMetaData) : Prop :=
  files.Pairwise fun f g => f.largest < g.smallest

theorem Disjoint.sublist {files files' : List FileMetaData} (h : Disjoint files)
    (hs : files'.Sublist files) : Disjoint files' := List.Pairwise.sublist hs h

/-- Two files of a disjoint level are the same or one comes before the other. -/
theorem Disjoint.trichotomy {files : List FileMetaData} (h : Disjoint files) {f g : FileMetaData}
    (hf : f ∈ files) (hg : g ∈ files) : f = g ∨ f.largest < g.smallest ∨ g.largest < f.smallest := by
  induction files with
  | nil => simp at hf
  | cons a files ih =>
    obtain ⟨ha, hrest⟩ := List.pairwise_cons.mp h
    rcases List.mem_cons.mp hf with hf' | hf' <;> rcases List.mem_cons.mp hg with hg' | hg'
    · exact Or.inl (hf'.trans hg'.symm)
    · exact Or.inr (Or.inl (hf' ▸ ha g hg'))
    · exact Or.inr (Or.inr (hg' ▸ ha f hf'))
    · exact ih hrest hf' hg'

theorem findFile_le (files : List FileMetaData) (key : InternalKey)
    (h : Disjoint files) (hp : ∀ f ∈ files, f.smallest ≤ f.largest) :
    findFile files key ≤ files.length ∧
      (∀ i f, files[i]? = some f → i < findFile files key → f.largest < key) ∧
      (∀ i f, files[i]? = some f → findFile files key ≤ i → key ≤ f.largest) := by
  have hmono : ∀ i j, i ≤ j → j < files.length →
      (match files[j]? with | some f => decide (f.largest < key) | none => false) = true →
      (match files[i]? with | some f => decide (f.largest < key) | none => false) = true := by
    intro i j hij hj hb
    have hi : i < files.length := by omega
    rw [List.getElem?_eq_getElem hj] at hb
    rw [List.getElem?_eq_getElem hi]
    simp only [decide_eq_true_eq] at hb ⊢
    rcases hij.eq_or_lt with rfl | hlt
    · exact hb
    · have h1 := List.pairwise_iff_getElem.mp h i j hi hj hlt
      exact (h1.trans_le (hp _ (List.getElem_mem hj))).trans hb
  obtain ⟨-, h2, h3, h4⟩ := Lib.lowerBound_spec hmono files.length 0 files.length (by omega)
    (by omega) le_rfl
  refine ⟨h2, fun i f hi hlt => ?_, fun i f hi hle => ?_⟩
  · have := h3 i (by omega) hlt
    simpa [hi] using this
  · have hlen : i < files.length := by
      by_contra hn
      simp [List.getElem?_eq_none (not_lt.mp hn)] at hi
    have := h4 i hle hlen
    simpa [hi] using this

/-- On a disjoint level the search splits the files into those that end before
    `key` and the others. -/
theorem findFile_split {files : List FileMetaData} (key : InternalKey) (h : Disjoint files)
    (hp : ∀ f ∈ files, f.smallest ≤ f.largest) :
    ∃ pre post, files = pre ++ post ∧ pre.length = findFile files key ∧
      (∀ f ∈ pre, f.largest < key) ∧ (∀ f ∈ post, key ≤ f.largest) := by
  obtain ⟨h1, h2, h3⟩ := findFile_le files key h hp
  refine ⟨files.take (findFile files key), files.drop (findFile files key), by simp,
    by simpa using h1, fun f hf => ?_, fun f hf => ?_⟩
  · obtain ⟨i, hi, rfl⟩ := List.mem_take_iff_getElem.mp hf
    exact h2 i _ (List.getElem?_eq_getElem (by omega)) (by omega)
  · obtain ⟨i, hi, rfl⟩ := List.mem_drop_iff_getElem.mp hf
    exact h3 (findFile files key + i) _ (List.getElem?_eq_getElem (by omega)) (by omega)

/-- The overlap test agrees with checking every file. -/
theorem someFileOverlapsRange_iff {files : List FileMetaData} {disjointSortedFiles : Bool}
    (h : disjointSortedFiles = true → Disjoint files) (hp : ∀ f ∈ files, f.Proper)
    (s l : Option Bytes) :
    someFileOverlapsRange disjointSortedFiles files s l = true ↔
      ∃ f ∈ files, meets s l f = true := by
  cases disjointSortedFiles with
  | false => simp [someFileOverlapsRange]
  | true =>
    have hd := h rfl
    -- the files at or after the index are those that do not end before `s`
    have hsplit : ∃ pre post, files = pre ++ post ∧
        (match s with
          | none => 0
          | some u => findFile files (makeInternalKey u kMaxSequenceNumber kValueTypeForSeek)) =
          pre.length ∧
        (∀ f ∈ pre, afterFile s f = true) ∧ (∀ f ∈ post, afterFile s f = false) := by
      cases s with
      | none => exact ⟨[], files, rfl, rfl, by simp, fun f _ => rfl⟩
      | some u =>
        obtain ⟨pre, post, h1, h2, h3, h4⟩ := findFile_split
          (makeInternalKey u kMaxSequenceNumber kValueTypeForSeek) hd fun f hf => (hp f hf).1
        refine ⟨pre, post, h1, h2.symm, fun f hf => ?_, fun f hf => ?_⟩
        · simp only [afterFile, decide_eq_true_eq]
          by_contra hn
          have hw := (hp f (h1 ▸ List.mem_append_left _ hf)).2.2
          exact absurd (h3 f hf) (not_lt.mpr (probe_le hw (not_lt.mp hn)))
        · simp only [afterFile, decide_eq_false_iff_not, not_lt]
          exact InternalKey.userKey_le_of_le (h4 f hf)
    obtain ⟨pre, post, rfl, hidx, hpre, hpost⟩ := hsplit
    simp only [someFileOverlapsRange, if_true, hidx]
    rw [List.getElem?_append_right le_rfl, Nat.sub_self]
    cases post with
    | nil =>
      simp only [List.getElem?_nil, Bool.false_eq_true, List.append_nil, false_iff, not_exists,
        not_and]
      intro f hf
      simp [meets, hpre f hf]
    | cons f rest =>
      simp only [List.getElem?_cons_zero, Bool.not_eq_true']
      constructor
      · intro hb
        refine ⟨f, by simp, ?_⟩
        simp [meets, hpost f (by simp), hb]
      · rintro ⟨g, hg, hm⟩
        simp only [meets, Bool.and_eq_true, Bool.not_eq_true'] at hm
        rcases List.mem_append.mp hg with hg | hg
        · simp [hpre g hg] at hm
        · rcases List.mem_cons.mp hg with rfl | hg
          · exact hm.2
          · -- a later file that begins in the range has this one before it
            cases l with
            | none => rfl
            | some l =>
              have h1 := (List.pairwise_cons.mp (List.pairwise_append.mp hd).2.1).1 g hg
              have h2 := (hp f (by simp)).1
              have h3 := InternalKey.userKey_le_of_lt (h2.trans_lt h1)
              simp only [beforeFile, decide_eq_false_iff_not, not_lt] at hm ⊢
              exact h3.trans hm.2

/-! ## `get_overlapping_inputs` -/

/-- One pass of the loop of `get_overlapping_inputs` (lines 372–404) over the
    files from the start: the inputs collected, or, where a level-0 file widens
    the range, the range to restart with. -/
def overlapPass (level : ℕ) (userBegin userEnd : Option Bytes) :
    (files inputs : List FileMetaData) → List FileMetaData ⊕ (Option Bytes × Option Bytes)
  | [], inputs => .inl inputs
  | file :: files, inputs =>
    if afterFile userBegin file then overlapPass level userBegin userEnd files inputs
    else if beforeFile userEnd file then overlapPass level userBegin userEnd files inputs
    else if level = 0 ∧ userBegin.any (fun u => decide (file.smallest.userKey < u)) then
      .inr (some file.smallest.userKey, userEnd)
    else if level = 0 ∧ userEnd.any (fun u => decide (u < file.largest.userKey)) then
      .inr (userBegin, some file.largest.userKey)
    else overlapPass level userBegin userEnd files (inputs ++ [file])

/-- The passes of `get_overlapping_inputs`, at most `fuel` of them. -/
def overlapLoop (level : ℕ) (files : List FileMetaData) :
    (fuel : ℕ) → (userBegin userEnd : Option Bytes) → List FileMetaData
  | 0, _, _ => []
  | fuel + 1, userBegin, userEnd =>
    match overlapPass level userBegin userEnd files [] with
    | .inl inputs => inputs
    | .inr (userBegin', userEnd') => overlapLoop level files fuel userBegin' userEnd'

/-- `Version::get_overlapping_inputs` (lines 361–405) on the files of `level`. Each
    restart moves a bound to that of a file it excluded, so twice the number of
    files and one more passes are enough. -/
def getOverlappingInputs (level : ℕ) (files : List FileMetaData)
    (begin_ end_ : Option InternalKey) : List FileMetaData :=
  overlapLoop level files (2 * files.length + 1) (begin_.map (·.userKey)) (end_.map (·.userKey))

/-- The file lies inside the range: it widens neither bound. -/
def within (userBegin userEnd : Option Bytes) (file : FileMetaData) : Bool :=
  !userBegin.any (fun u => decide (file.smallest.userKey < u)) &&
    !userEnd.any (fun u => decide (u < file.largest.userKey))

/-- `(b', e')` is `(b, e)` widened by the file `f`, which meets it. -/
def Widens (f : FileMetaData) (b e b' e' : Option Bytes) : Prop :=
  meets b e f = true ∧
    ((b.any (fun u => decide (f.smallest.userKey < u)) = true ∧ b' = some f.smallest.userKey ∧
        e' = e) ∨
      (e.any (fun u => decide (u < f.largest.userKey)) = true ∧ b' = b ∧
        e' = some f.largest.userKey))

theorem overlapPass_of_pos {level : ℕ} (hl : 0 < level) (b e : Option Bytes)
    (files inputs : List FileMetaData) :
    overlapPass level b e files inputs = .inl (inputs ++ files.filter (meets b e)) := by
  induction files generalizing inputs with
  | nil => simp [overlapPass]
  | cons f files ih =>
    have h0 : level ≠ 0 := by omega
    rw [overlapPass]
    by_cases ha : afterFile b f = true
    · rw [if_pos ha, ih, List.filter_cons_of_neg (by simp [meets, ha])]
    · by_cases hb : beforeFile e f = true
      · rw [if_neg ha, if_pos hb, ih, List.filter_cons_of_neg (by simp [meets, hb])]
      · rw [if_neg ha, if_neg hb, if_neg (by simp [h0]), if_neg (by simp [h0]), ih,
          List.filter_cons_of_pos (by simp [meets, ha, hb]), List.append_assoc,
          List.singleton_append]

/-- A pass at level 0 collects the files that meet the range, all inside it, or
    ends at a file that widens the range. -/
theorem overlapPass_zero (b e : Option Bytes) (files inputs : List FileMetaData) :
    (overlapPass 0 b e files inputs = .inl (inputs ++ files.filter (meets b e)) ∧
      ∀ f ∈ files, meets b e f = true → within b e f = true) ∨
    (∃ f ∈ files, ∃ b' e', Widens f b e b' e' ∧ overlapPass 0 b e files inputs = .inr (b', e')) := by
  induction files generalizing inputs with
  | nil => exact Or.inl ⟨by simp [overlapPass], by simp⟩
  | cons f files ih =>
    rw [overlapPass]
    by_cases hm : meets b e f = true
    · obtain ⟨ha, hb⟩ : afterFile b f = false ∧ beforeFile e f = false := by
        simpa [meets] using hm
      simp only [ha, hb, true_and, Bool.false_eq_true, if_false]
      by_cases h1 : b.any (fun u => decide (f.smallest.userKey < u)) = true
      · exact Or.inr ⟨f, by simp, _, _, ⟨hm, Or.inl ⟨h1, rfl, rfl⟩⟩, by rw [if_pos h1]⟩
      · by_cases h2 : e.any (fun u => decide (u < f.largest.userKey)) = true
        · exact Or.inr ⟨f, by simp, _, _, ⟨hm, Or.inr ⟨h2, rfl, rfl⟩⟩, by
            rw [if_neg h1, if_pos h2]⟩
        · rw [if_neg h1, if_neg h2, List.filter_cons_of_pos hm]
          rcases ih (inputs ++ [f]) with ⟨h3, h4⟩ | ⟨g, hg, b', e', h3, h4⟩
          · refine Or.inl ⟨by rw [h3, List.append_assoc, List.singleton_append], ?_⟩
            intro g hg hmg
            rcases List.mem_cons.mp hg with rfl | hg
            · simp [within, h1, h2]
            · exact h4 g hg hmg
          · exact Or.inr ⟨g, List.mem_cons_of_mem _ hg, b', e', h3, h4⟩
    · have hskip : overlapPass 0 b e (f :: files) inputs = overlapPass 0 b e files inputs := by
        rw [overlapPass]
        by_cases ha : afterFile b f = true
        · rw [if_pos ha]
        · have hb : beforeFile e f = true := by
            simpa [meets, ha] using hm
          rw [if_neg ha, if_pos hb]
      rw [overlapPass] at hskip
      rw [hskip, List.filter_cons_of_neg hm]
      rcases ih inputs with ⟨h3, h4⟩ | ⟨g, hg, b', e', h3, h4⟩
      · refine Or.inl ⟨h3, fun g hg hmg => ?_⟩
        rcases List.mem_cons.mp hg with rfl | hg
        · exact absurd hmg hm
        · exact h4 g hg hmg
      · exact Or.inr ⟨g, List.mem_cons_of_mem _ hg, b', e', h3, h4⟩

/-- How many bounds of files lie outside the range: what bounds the restarts. -/
def outside (files : List FileMetaData) (b e : Option Bytes) : ℕ :=
  files.countP (fun f => b.any fun u => decide (f.smallest.userKey < u)) +
    files.countP (fun f => e.any fun u => decide (u < f.largest.userKey))

theorem countP_lt_of_imp {α : Type*} {p q : α → Bool} {l : List α} {a : α} (ha : a ∈ l)
    (himp : ∀ x, p x = true → q x = true) (hq : q a = true) (hp : p a = false) :
    l.countP p < l.countP q := by
  induction l with
  | nil => simp at ha
  | cons x l ih =>
    have hle : l.countP p ≤ l.countP q := List.countP_mono_left fun y _ => himp y
    rcases List.mem_cons.mp ha with rfl | ha
    · rw [List.countP_cons_of_neg (by simp [hp]), List.countP_cons_of_pos hq]
      omega
    · have := ih ha
      by_cases hx : p x = true
      · rw [List.countP_cons_of_pos hx, List.countP_cons_of_pos (himp x hx)]
        omega
      · rw [List.countP_cons_of_neg hx, List.countP_cons]
        omega

theorem outside_lt_of_widens {files : List FileMetaData} {f : FileMetaData} (hf : f ∈ files)
    {b e b' e' : Option Bytes} (h : Widens f b e b' e') :
    outside files b' e' < outside files b e := by
  obtain ⟨-, ⟨h1, rfl, rfl⟩ | ⟨h1, rfl, rfl⟩⟩ := h
  · obtain ⟨u, rfl, hu⟩ := (Option.any_eq_true _ _).mp h1
    have : files.countP (fun g => decide (g.smallest.userKey < f.smallest.userKey)) <
        files.countP (fun g => decide (g.smallest.userKey < u)) := by
      refine countP_lt_of_imp hf (fun g hg => ?_) hu (by simp)
      simp only [decide_eq_true_eq] at *
      exact hg.trans hu
    simpa [outside] using this
  · obtain ⟨u, rfl, hu⟩ := (Option.any_eq_true _ _).mp h1
    have : files.countP (fun g => decide (f.largest.userKey < g.largest.userKey)) <
        files.countP (fun g => decide (u < g.largest.userKey)) := by
      refine countP_lt_of_imp hf (fun g hg => ?_) hu (by simp)
      simp only [decide_eq_true_eq] at *
      exact hu.trans hg
    simpa [outside] using this

theorem overlapLoop_zero {files : List FileMetaData} {P : Option Bytes → Option Bytes → Prop}
    (hP : ∀ f ∈ files, ∀ b e b' e', P b e → Widens f b e b' e' → P b' e') :
    ∀ fuel b e, outside files b e < fuel → P b e →
      ∃ b' e', P b' e' ∧ overlapLoop 0 files fuel b e = files.filter (meets b' e') ∧
        ∀ f ∈ files, meets b' e' f = true → within b' e' f = true := by
  intro fuel
  induction fuel with
  | zero => intro b e h; omega
  | succ fuel ih =>
    intro b e hfuel hbe
    rw [overlapLoop]
    rcases overlapPass_zero b e files [] with ⟨h1, h2⟩ | ⟨f, hf, b', e', hw, h1⟩
    · rw [h1]
      exact ⟨b, e, hbe, by simp, h2⟩
    · rw [h1]
      exact ih b' e' (by have := outside_lt_of_widens hf hw; omega) (hP f hf b e b' e' hbe hw)

theorem outside_le (files : List FileMetaData) (b e : Option Bytes) :
    outside files b e ≤ 2 * files.length := by
  have h1 := List.countP_le_length (p := fun f : FileMetaData =>
    b.any fun u => decide (f.smallest.userKey < u)) (l := files)
  have h2 := List.countP_le_length (p := fun f : FileMetaData =>
    e.any fun u => decide (u < f.largest.userKey)) (l := files)
  unfold outside
  omega

/-- Below level 0 the inputs are the files that meet the range. -/
theorem getOverlappingInputs_of_pos {level : ℕ} (hl : 0 < level) (files : List FileMetaData)
    (b e : Option InternalKey) :
    getOverlappingInputs level files b e =
      files.filter (meets (b.map (·.userKey)) (e.map (·.userKey))) := by
  rw [getOverlappingInputs, overlapLoop, overlapPass_of_pos hl]
  simp

/-- At level 0 the inputs are the files that meet a range reached by widening,
    and every one of them lies inside it. -/
theorem getOverlappingInputs_zero {files : List FileMetaData}
    {P : Option Bytes → Option Bytes → Prop} (b e : Option InternalKey)
    (h0 : P (b.map (·.userKey)) (e.map (·.userKey)))
    (hP : ∀ f ∈ files, ∀ b e b' e', P b e → Widens f b e b' e' → P b' e') :
    ∃ b' e', P b' e' ∧ getOverlappingInputs 0 files b e = files.filter (meets b' e') ∧
      ∀ f ∈ files, meets b' e' f = true → within b' e' f = true :=
  overlapLoop_zero hP _ _ _ (by have := outside_le files (b.map (·.userKey)) (e.map (·.userKey)); omega)
    h0

/-! ## Placing a flush -/

/-- `Version::overlaps_in_level` (lines 407–412). -/
def overlapsInLevel (files : Levels) (level : ℕ) (smallest largest : Bytes) : Bool :=
  someFileOverlapsRange (decide (0 < level)) (files level) (some smallest) (some largest)

/-- The loop of `pick_level_for_memtable_output` (lines 428–441) from `level`, with
    `fuel` levels to go. -/
def pickLevelLoop (maxFileSize : ℕ) (files : Levels) (smallest largest : Bytes) :
    (fuel level : ℕ) → ℕ
  | 0, level => level
  | fuel + 1, level =>
    if overlapsInLevel files (level + 1) smallest largest then level
    else if level + 2 < kNumLevels ∧
        10 * maxFileSize < totalFileSize (getOverlappingInputs (level + 2) (files (level + 2))
          (some (makeInternalKey smallest kMaxSequenceNumber kValueTypeForSeek))
          (some (makeInternalKey largest 0 .deletion))) then level
    else pickLevelLoop maxFileSize files smallest largest fuel (level + 1)

/-- `Version::pick_level_for_memtable_output` (lines 414–443). -/
def pickLevelForMemtableOutput (maxFileSize : ℕ) (files : Levels) (smallest largest : Bytes) : ℕ :=
  if overlapsInLevel files 0 smallest largest then 0
  else pickLevelLoop maxFileSize files smallest largest kMaxMemCompactLevel 0

end Ambar
