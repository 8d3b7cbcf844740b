import Mathlib.Data.List.Basic
import Mathlib.Data.List.Flatten
import Mathlib.Order.Basic
import Mathlib.Tactic.Ring

/-!
# Lists laid end to end

Where the parts of a concatenation start, and how they are found there again.

* `drop_offsetAt`, `slice_offsetAt`: a part stands where it starts.
* `offsetAt_strictMono`: parts that are not empty start at different places.
-/

namespace Ambar.Lib

variable {α : Type*} {parts : List (List α)} {i j : ℕ}

/-- Where part `i` starts in the concatenation. -/
def offsetAt (parts : List (List α)) (i : ℕ) : ℕ := (parts.take i).flatten.length

@[simp] theorem offsetAt_zero (parts : List (List α)) : offsetAt parts 0 = 0 := rfl

theorem offsetAt_length (parts : List (List α)) :
    offsetAt parts parts.length = parts.flatten.length := by
  rw [offsetAt, List.take_length]

theorem offsetAt_succ (h : i < parts.length) :
    offsetAt parts (i + 1) = offsetAt parts i + parts[i].length := by
  unfold offsetAt
  rw [List.take_succ_eq_append_getElem h, List.flatten_append, List.length_append]
  simp

theorem offsetAt_append (h : i ≤ parts.length) (qs : List (List α)) :
    offsetAt (parts ++ qs) i = offsetAt parts i := by
  rw [offsetAt, List.take_append_of_le_length h, offsetAt]

theorem drop_offsetAt (parts : List (List α)) (i : ℕ) :
    parts.flatten.drop (offsetAt parts i) = (parts.drop i).flatten := by
  have hsplit : parts.flatten = (parts.take i).flatten ++ (parts.drop i).flatten := by
    rw [← List.flatten_append, List.take_append_drop]
  rw [hsplit]
  exact List.drop_left

/-- A search that finds nothing in the first parts goes on in the rest. -/
theorem findIdx_flatten {p : α → Bool} (h : ∀ g ∈ parts.take i, ∀ e ∈ g, p e = false) :
    parts.flatten.findIdx p = offsetAt parts i + (parts.drop i).flatten.findIdx p := by
  have hsplit : parts.flatten = (parts.take i).flatten ++ (parts.drop i).flatten := by
    rw [← List.flatten_append, List.take_append_drop]
  have hnone : (parts.take i).flatten.findIdx p = (parts.take i).flatten.length := by
    refine List.findIdx_eq_length.mpr fun e he => ?_
    obtain ⟨g, hg, heg⟩ := List.mem_flatten.mp he
    exact h g hg e heg
  rw [hsplit, List.findIdx_append, if_neg (by omega), offsetAt, Nat.add_comm]

/-- A part, and what follows it. -/
theorem drop_offsetAt_cons (h : i < parts.length) :
    parts.flatten.drop (offsetAt parts i) = parts[i] ++ (parts.drop (i + 1)).flatten := by
  rw [drop_offsetAt, List.drop_eq_getElem_cons h, List.flatten_cons]

theorem getElem?_flatten (h : i < parts.length) (hj : j < parts[i].length) :
    parts.flatten[offsetAt parts i + j]? = some (parts[i][j]) := by
  rw [← List.getElem?_drop, drop_offsetAt_cons h, List.getElem?_append_left hj,
    List.getElem?_eq_getElem hj]

theorem slice_offsetAt (h : i < parts.length) :
    (parts.flatten.drop (offsetAt parts i)).take (offsetAt parts (i + 1) - offsetAt parts i) =
      parts[i] := by
  rw [drop_offsetAt_cons h, offsetAt_succ h, Nat.add_sub_cancel_left, List.take_left]

theorem offsetAt_mono (h : i ≤ j) : offsetAt parts i ≤ offsetAt parts j := by
  unfold offsetAt
  have hsplit : parts.take j = parts.take i ++ (parts.take j).drop i := by
    conv_lhs => rw [← List.take_append_drop i (parts.take j)]
    rw [List.take_take, Nat.min_eq_left h]
  rw [hsplit, List.flatten_append, List.length_append]
  exact Nat.le_add_right _ _

theorem offsetAt_le_length (parts : List (List α)) (i : ℕ) :
    offsetAt parts i ≤ parts.flatten.length := by
  rcases Nat.le_total i parts.length with h | h
  · rw [← offsetAt_length]
    exact offsetAt_mono h
  · rw [offsetAt, List.take_of_length_le h]

theorem offsetAt_strictMono (hne : ∀ p ∈ parts, p ≠ []) (h : i < j) (hj : j ≤ parts.length) :
    offsetAt parts i < offsetAt parts j := by
  have hpos : 0 < parts[i].length := List.length_pos_iff.mpr (hne _ (List.getElem_mem (by omega)))
  calc offsetAt parts i < offsetAt parts (i + 1) := by
        rw [offsetAt_succ (by omega)]
        omega
    _ ≤ offsetAt parts j := offsetAt_mono h

end Ambar.Lib
