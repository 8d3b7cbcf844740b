import Mathlib.Data.List.Basic
import Mathlib.Data.UInt

/-!
# Bit arrays

A byte string as an array of bits that are only ever set, and the filter this makes: for
every key some bits are set, whichever they are, and a key all of whose bits are set may
be among those added.

* `hasBit_addAll`: the bits of a key that was added.
-/

namespace Ambar.Lib

/-- The mask of a bit within its byte. -/
def bitMask (i : ℕ) : UInt8 := 1 <<< UInt8.ofNat (i % 8)

def setBit (array : List UInt8) (i : ℕ) : List UInt8 :=
  array.set (i / 8) (array.getD (i / 8) 0 ||| bitMask i)

def hasBit (array : List UInt8) (i : ℕ) : Bool := array.getD (i / 8) 0 &&& bitMask i != 0

theorem bitMask_ne_zero (i : ℕ) : bitMask i ≠ 0 := by
  have h : ∀ k : Fin 8, (1 : UInt8) <<< UInt8.ofNat k.val ≠ 0 := by decide
  exact h ⟨i % 8, Nat.mod_lt _ (by decide)⟩

theorem or_and_ne_zero {a b c : UInt8} (h : a &&& c ≠ 0 ∨ b &&& c ≠ 0) : (a ||| b) &&& c ≠ 0 := by
  have hdistrib : (a ||| b) &&& c = (a &&& c) ||| (b &&& c) :=
    UInt8.toBitVec_inj.mp BitVec.and_or_distrib_right
  rw [hdistrib, Ne, UInt8.or_eq_zero_iff]
  tauto

@[simp] theorem length_setBit (array : List UInt8) (i : ℕ) :
    (setBit array i).length = array.length := List.length_set ..

theorem hasBit_setBit_self {array : List UInt8} {i : ℕ} (h : i / 8 < array.length) :
    hasBit (setBit array i) i = true := by
  have hget : (setBit array i).getD (i / 8) 0 = array.getD (i / 8) 0 ||| bitMask i := by
    unfold setBit
    rw [List.getD_eq_getElem?_getD, List.getElem?_set_self h, Option.getD_some]
  rw [hasBit, hget, bne_iff_ne]
  exact or_and_ne_zero (Or.inr (by rw [UInt8.and_self]; exact bitMask_ne_zero i))

theorem hasBit_setBit {array : List UInt8} {i j : ℕ} (h : hasBit array i = true) :
    hasBit (setBit array j) i = true := by
  by_cases hij : i / 8 = j / 8
  · by_cases hlt : j / 8 < array.length
    · have hget : (setBit array j).getD (i / 8) 0 = array.getD (i / 8) 0 ||| bitMask j := by
        unfold setBit
        rw [hij, List.getD_eq_getElem?_getD, List.getElem?_set_self hlt, Option.getD_some]
      rw [hasBit, bne_iff_ne] at h ⊢
      rw [hget]
      exact or_and_ne_zero (Or.inl h)
    · rwa [setBit, List.set_eq_of_length_le (by omega)]
  · have hget : (setBit array j).getD (i / 8) 0 = array.getD (i / 8) 0 := by
      unfold setBit
      rw [List.getD_eq_getElem?_getD, List.getElem?_set_ne (Ne.symm hij), ← List.getD_eq_getElem?_getD]
    rwa [hasBit, hget]

/-- The bits of all the keys. -/
def addAll {κ : Type*} (probes : κ → List ℕ) (keys : List κ) (array : List UInt8) : List UInt8 :=
  keys.foldl (fun array key => (probes key).foldl setBit array) array

section

variable {κ : Type*} {probes : κ → List ℕ}

theorem hasBit_foldl_setBit {bits : List ℕ} {i : ℕ} :
    ∀ {array : List UInt8}, (hasBit array i = true ∨ i ∈ bits ∧ i / 8 < array.length) →
      hasBit (bits.foldl setBit array) i = true := by
  induction bits with
  | nil =>
    rintro array (h | ⟨h, -⟩)
    · exact h
    · cases h
  | cons j bits ih =>
    rintro array (h | ⟨h, hlt⟩)
    · exact ih (Or.inl (hasBit_setBit h))
    · rcases List.mem_cons.mp h with rfl | h
      · exact ih (Or.inl (hasBit_setBit_self hlt))
      · exact ih (Or.inr ⟨h, by rwa [length_setBit]⟩)

theorem length_foldl_setBit (bits : List ℕ) :
    ∀ array : List UInt8, (bits.foldl setBit array).length = array.length := by
  induction bits with
  | nil => exact fun _ => rfl
  | cons j bits ih => exact fun array => (ih _).trans (length_setBit array j)

@[simp] theorem length_addAll (keys : List κ) :
    ∀ array : List UInt8, (addAll probes keys array).length = array.length := by
  induction keys with
  | nil => exact fun _ => rfl
  | cons k keys ih => exact fun array => (ih _).trans (length_foldl_setBit _ array)

/-- **A key that was added finds its bits set**, whatever was added besides. -/
theorem hasBit_addAll {keys : List κ} {i : ℕ} :
    ∀ {array : List UInt8},
      (hasBit array i = true ∨ (∃ key ∈ keys, i ∈ probes key) ∧ i / 8 < array.length) →
      hasBit (addAll probes keys array) i = true := by
  induction keys with
  | nil =>
    rintro array (h | ⟨⟨key, h, -⟩, -⟩)
    · exact h
    · cases h
  | cons k keys ih =>
    rintro array (h | ⟨⟨key, hkey, hi⟩, hlt⟩)
    · exact ih (Or.inl (hasBit_foldl_setBit (Or.inl h)))
    · rcases List.mem_cons.mp hkey with rfl | hkey
      · exact ih (Or.inl (hasBit_foldl_setBit (Or.inr ⟨hi, hlt⟩)))
      · exact ih (Or.inr ⟨⟨key, hkey, hi⟩, by rwa [length_foldl_setBit]⟩)

end

end Ambar.Lib
