import Mathlib.Data.Fintype.Card
import Mathlib.Data.Set.Finite.Lattice
import Mathlib.Tactic

/-!
# Sequences in a finite set

A sequence in which every element determines the next and that stays in a finite set comes
back to an element it had. What holds of all its elements is then a matter of finitely many.

* `finite_lists`: the lists of bounded length over a finite set are finitely many.
* `forall_iff_recurs`: a property holds of all elements if it holds until one recurs.
-/

namespace Ambar.Lib

variable {α X : Type*}

theorem finite_lists {S : Set α} (hS : S.Finite) :
    ∀ n : ℕ, {l : List α | l.length ≤ n ∧ ∀ a ∈ l, a ∈ S}.Finite := by
  intro n
  induction n with
  | zero =>
    refine (Set.finite_singleton []).subset fun l hl => ?_
    exact List.length_eq_zero_iff.mp (Nat.le_zero.mp hl.1)
  | succ n ih =>
    refine ((Set.finite_singleton []).union (Set.Finite.image2 List.cons hS ih)).subset ?_
    intro l hl
    cases l with
    | nil => exact .inl rfl
    | cons a l =>
      refine .inr ⟨a, hl.2 a (by simp), l, ⟨Nat.le_of_succ_le_succ hl.1, fun b hb => ?_⟩, rfl⟩
      exact hl.2 b (List.mem_cons_of_mem _ hb)

theorem eq_add_of_eq {f : ℕ → X} (hdet : ∀ i j, f i = f j → f (i + 1) = f (j + 1)) {i j : ℕ}
    (h : f i = f j) : ∀ k, f (i + k) = f (j + k) := by
  intro k
  induction k with
  | zero => exact h
  | succ k ih => exact hdet _ _ ih

theorem forall_iff_recurs {f : ℕ → X} {S : Set X} (hfin : S.Finite) (hmem : ∀ n, f n ∈ S)
    (hdet : ∀ i j, f i = f j → f (i + 1) = f (j + 1)) (P : X → Prop) :
    (∀ n, P (f n)) ↔ ∃ i j, i < j ∧ f i = f j ∧ ∀ k ≤ j, P (f k) := by
  constructor
  · intro hall
    have hnot : ¬ Function.Injective f := fun hinj =>
      (Set.infinite_of_injective_forall_mem hinj hmem) hfin
    simp only [Function.Injective, not_forall] at hnot
    obtain ⟨i, j, heq, hne⟩ := hnot
    rcases lt_or_gt_of_ne hne with hlt | hlt
    · exact ⟨i, j, hlt, heq, fun k _ => hall (k)⟩
    · exact ⟨j, i, hlt, heq.symm, fun k _ => hall k⟩
  · rintro ⟨i, j, hlt, heq, hP⟩ n
    -- past the recurrence the sequence repeats what came before
    induction n using Nat.strong_induction_on with
    | _ n ih =>
      by_cases hn : n ≤ j
      · exact hP n hn
      · have hback := eq_add_of_eq hdet heq (n - j)
        rw [show j + (n - j) = n by omega] at hback
        rw [← hback]
        exact ih _ (by omega)

end Ambar.Lib
