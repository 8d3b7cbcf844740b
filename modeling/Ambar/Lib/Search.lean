import Mathlib.Data.Finset.Lattice.Fold
import Mathlib.Data.List.Sort
import Mathlib.Tactic

/-!
# Binary search over indices

The loop `while (left < right) { mid = (left + right) / 2; … }` that looks for
the first index at which a monotone test turns false. `below i` says that the
element at index `i` lies below the target. The loop is bounded by `fuel`
tests; `right - left` of them are enough.

* `lowerBound_spec`: for a downward closed test and enough fuel, the result
  splits the range into the indices below the target and the others.
-/

namespace Ambar.Lib

/-- The search loop on `[left, right)`; `below` holds of the indices to skip. -/
def lowerBound (below : ℕ → Bool) : (fuel left right : ℕ) → ℕ
  | 0, _, right => right
  | fuel + 1, left, right =>
    if left < right then
      let mid := (left + right) / 2
      if below mid then lowerBound below fuel (mid + 1) right
      else lowerBound below fuel left mid
    else right

theorem lowerBound_spec {below : ℕ → Bool} {n : ℕ}
    (hmono : ∀ i j, i ≤ j → j < n → below j = true → below i = true) :
    ∀ fuel left right, right - left ≤ fuel → left ≤ right → right ≤ n →
      left ≤ lowerBound below fuel left right ∧ lowerBound below fuel left right ≤ right ∧
      (∀ i, left ≤ i → i < lowerBound below fuel left right → below i = true) ∧
      (∀ i, lowerBound below fuel left right ≤ i → i < right → below i = false) := by
  intro fuel
  induction fuel with
  | zero =>
    intro left right hf hlr _
    have : left = right := by omega
    subst this
    rw [lowerBound]
    exact ⟨le_rfl, le_rfl, fun i h1 h2 => by omega, fun i h1 h2 => by omega⟩
  | succ fuel ih =>
    intro left right hf hlr hrn
    rw [lowerBound]
    by_cases hlt : left < right
    · simp only [if_pos hlt]
      by_cases hb : below ((left + right) / 2) = true
      · rw [if_pos hb]
        obtain ⟨h1, h2, h3, h4⟩ := ih ((left + right) / 2 + 1) right (by omega) (by omega) hrn
        refine ⟨by omega, h2, fun i hi hi' => ?_, h4⟩
        -- below the midpoint the test holds because it holds at the midpoint
        by_cases hm : i ≤ (left + right) / 2
        · exact hmono i _ hm (by omega) hb
        · exact h3 i (by omega) hi'
      · rw [if_neg hb]
        obtain ⟨h1, h2, h3, h4⟩ := ih left ((left + right) / 2) (by omega) (by omega) (by omega)
        refine ⟨h1, by omega, h3, fun i hi hi' => ?_⟩
        by_cases hm : i < (left + right) / 2
        · exact h4 i hi hm
        · cases hi2 : below i with
          | false => rfl
          | true => exact absurd (hmono _ i (by omega) (by omega) hi2) hb
    · have : left = right := by omega
      subst this
      rw [if_neg hlt]
      exact ⟨le_rfl, le_rfl, fun i h1 h2 => by omega, fun i h1 h2 => by omega⟩

end Ambar.Lib
