import Ambar.Format.FileName
import Ambar.Version.Files
import Mathlib.Data.Int.ModEq

/-!
# The files of a level, by name

`get_property` (`src/db_impl.cpp`, lines 1634–1653) reads the level from the digits that
follow `ambar.num-files-at-level`. It adds them up in an `int`, however many there are, and
compares the sum with `kNumLevels` afterwards; in 32 bits the sum of a long enough name
comes round to a level, or below zero.

* `levelOf_digits`: the sum is the number of the digits, in 32 bits.
* `getProperty_iff`: the names that are answered as the number asks.
-/

namespace Ambar

/-- A signed `int` of 32 bits after an operation. -/
def wrapInt (n : ℤ) : ℤ := n.bmod (2 ^ 32)

/-- The loop over the digits (lines 1645–1648). -/
def levelOf : (level : ℤ) → List Char → Option ℤ
  | level, [] => some level
  | level, c :: suffix =>
    if c < '0' ∨ '9' < c then none
    else levelOf (wrapInt (wrapInt (level * 10) + (c.toNat - '0'.toNat : ℕ))) suffix

/-- What comes of a property of this kind: false, a number of files, or a read of `files_`
    at an index that is no level. -/
inductive PropertyAnswer where
  | refused
  | files (count : ℕ)
  | outside (level : ℤ)
deriving DecidableEq, Repr

def kPropertyPrefix : List Char := "ambar.".toList
def kNumFiles : List Char := "num-files-at-level".toList

/-- `num_level_files` (`src/version_set.cpp`, lines 765–768). -/
def numLevelFiles (files : Levels) (level : ℤ) : PropertyAnswer :=
  if 0 ≤ level ∧ level < kNumLevels then .files (files level.toNat).length else .outside level

/-- `get_property`, for the names of the files of a level; `none` for other names. -/
def getProperty (files : Levels) (property : List Char) : Option PropertyAnswer :=
  if property.take kPropertyPrefix.length ≠ kPropertyPrefix then some .refused
  else
    let name := property.drop kPropertyPrefix.length
    if name.take kNumFiles.length = kNumFiles then
      let suffix := name.drop kNumFiles.length
      match levelOf 0 suffix with
      | none => some .refused
      | some level =>
        if suffix = [] ∨ (kNumLevels : ℤ) ≤ level then some .refused
        else some (numLevelFiles files level)
    else none

/-! ## The sum -/

theorem wrapInt_step (n digit : ℕ) :
    wrapInt (wrapInt (wrapInt n * 10) + digit) = wrapInt (10 * n + digit : ℕ) := by
  unfold wrapInt
  rw [Int.bmod_mul_bmod, Int.bmod_add_bmod, Int.mul_comm]
  push_cast
  rfl

/-- **Digits add up to their number**, in 32 bits. -/
theorem levelOf_digits {suffix : List Char} (h : ∀ c ∈ suffix, c.isDigit = true) :
    ∀ n : ℕ, levelOf (wrapInt n) suffix = some (wrapInt (Nat.ofDigitChars 10 suffix n)) := by
  induction suffix with
  | nil => exact fun n => rfl
  | cons c suffix ih =>
    intro n
    have hc : ¬ (c < '0' ∨ '9' < c) := (isDigit_iff c).mp (h c List.mem_cons_self)
    rw [levelOf, if_neg hc, wrapInt_step, ih (fun d hd => h d (List.mem_cons_of_mem _ hd)),
      Nat.ofDigitChars_cons]

/-- A number of levels is as it is in 32 bits. -/
theorem wrapInt_of_lt {n : ℕ} (h : n < kNumLevels) : wrapInt n = n := by
  unfold kNumLevels at h
  exact Int.bmod_eq_of_le (by omega) (by omega)

/-! ## The answers -/

/-- The name of the property for these digits. -/
def filesAtLevel (digits : List Char) : List Char := kPropertyPrefix ++ (kNumFiles ++ digits)

/-- What the number of the digits asks for. -/
def askedFor (files : Levels) (level : ℕ) : PropertyAnswer :=
  if level < kNumLevels then .files (files level).length else .refused

theorem getProperty_digits (files : Levels) {digits : List Char} (hne : digits ≠ [])
    (h : ∀ c ∈ digits, c.isDigit = true) :
    getProperty files (filesAtLevel digits) =
      some (if (kNumLevels : ℤ) ≤ wrapInt (Nat.ofDigitChars 10 digits 0) then .refused
        else numLevelFiles files (wrapInt (Nat.ofDigitChars 10 digits 0))) := by
  have hlevel : levelOf 0 digits = some (wrapInt (Nat.ofDigitChars 10 digits 0)) := levelOf_digits h 0
  unfold getProperty filesAtLevel
  rw [List.take_left, List.drop_left, if_neg (not_not.mpr rfl)]
  simp only [List.take_left, List.drop_left, if_true, hlevel]
  rw [apply_ite some]
  simp only [hne, false_or]

/-- **The answer is what the digits ask for** unless a number of at least `kNumLevels` comes
    to less in 32 bits. -/
theorem getProperty_iff (files : Levels) (digits : List Char) (hne : digits ≠ [])
    (h : ∀ c ∈ digits, c.isDigit = true) :
    getProperty files (filesAtLevel digits) = some (askedFor files (Nat.ofDigitChars 10 digits 0)) ↔
      (kNumLevels ≤ Nat.ofDigitChars 10 digits 0 →
        (kNumLevels : ℤ) ≤ wrapInt (Nat.ofDigitChars 10 digits 0)) := by
  rw [getProperty_digits files hne h, Option.some.injEq]
  generalize Nat.ofDigitChars 10 digits 0 = n
  rcases Nat.lt_or_ge n kNumLevels with hlt | hge
  · have hlt' : (n : ℤ) < kNumLevels := Int.ofNat_lt.mpr hlt
    rw [wrapInt_of_lt hlt, askedFor, if_pos hlt, if_neg (not_le.mpr hlt'), numLevelFiles,
      if_pos ⟨Int.natCast_nonneg n, hlt'⟩, Int.toNat_natCast]
    simp [hlt]
  · rw [askedFor, if_neg (not_lt.mpr hge)]
    simp only [hge, forall_const]
    constructor
    · intro heq
      by_contra hless
      rw [if_neg hless, numLevelFiles] at heq
      split_ifs at heq
    · intro hle
      rw [if_pos hle]

/-- Ten digits that come round to level 0, and ten that come to less than zero. -/
theorem getProperty_comes_round :
    getProperty (fun level => List.replicate level ⟨1, 1, makeInternalKey [] 1 .value, makeInternalKey [] 1 .value⟩)
        (filesAtLevel "4294967297".toList) = some (.files 1) ∧
      getProperty (fun _ => []) (filesAtLevel "2147483648".toList) = some (.outside (-2147483648)) := by
  decide +kernel

theorem getProperty_level_three :
    getProperty (fun level => List.replicate level ⟨1, 1, makeInternalKey [] 1 .value, makeInternalKey [] 1 .value⟩)
        (filesAtLevel "003".toList) = some (.files 3) := by
  have hdigits : ∀ c ∈ "003".toList, c.isDigit = true := List.all_eq_true.mp (by decide)
  exact (getProperty_iff _ "003".toList (by decide) hdigits).mpr (by decide)

end Ambar
