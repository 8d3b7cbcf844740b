import Mathlib.Data.List.AList
import Mathlib.Algebra.BigOperators.Group.List.Basic

/-!
# Association lists

What a map from keys to values has besides `AList`: an erased key takes one pair along, and
a sum over the pairs changes by that pair.

* `erase_perm`: an association list is one of its pairs and the rest.
* `total_insert`, `total_erase`: sums over an association list.
-/

namespace Ambar.Lib

variable {α M : Type*} {β : α → Type*} {s : AList β}

/-- The sum over the pairs of an association list. -/
def total [AddCommMonoid M] (f : ∀ a, β a → M) (s : AList β) : M :=
  (s.entries.map fun p => f p.1 p.2).sum

variable [DecidableEq α]

theorem erase_perm {a : α} {b : β a} (h : s.lookup a = some b) :
    s.entries.Perm (⟨a, b⟩ :: (s.erase a).entries) := by
  have hmem : (⟨a, b⟩ : Sigma β) ∈ s.entries := AList.mem_lookup_iff.mp h
  obtain ⟨b', l₁, l₂, -, heq, hrest⟩ := List.exists_of_kerase (List.mem_keys_of_mem hmem)
  have hmem' : (⟨a, b'⟩ : Sigma β) ∈ s.entries := by simp [heq]
  have hb : b = b' := Option.some.inj (h.symm.trans (AList.mem_lookup_iff.mpr hmem'))
  rw [show (s.erase a).entries = l₁ ++ l₂ from hrest, heq, hb]
  exact List.perm_middle

theorem erase_eq_self {a : α} (h : s.lookup a = none) : s.erase a = s := by
  refine AList.ext (List.kerase_of_notMem_keys fun hmem => ?_)
  exact AList.lookup_eq_none.mp h hmem

theorem lookup_insert_eq {a a' : α} {b : β a} {b' : β a'} (h : (s.insert a b).lookup a' = some b') :
    (⟨a', b'⟩ : Sigma β) = ⟨a, b⟩ ∨ a' ≠ a ∧ s.lookup a' = some b' := by
  by_cases heq : a' = a
  · subst heq
    rw [AList.lookup_insert] at h
    exact .inl (by rw [Option.some.inj h])
  · rw [AList.lookup_insert_ne heq] at h
    exact .inr ⟨heq, h⟩

theorem lookup_erase_eq {a a' : α} {b' : β a'} (h : (s.erase a).lookup a' = some b') :
    a' ≠ a ∧ s.lookup a' = some b' := by
  by_cases heq : a' = a
  · subst heq
    rw [AList.lookup_erase] at h
    exact nomatch h
  · rw [AList.lookup_erase_ne heq] at h
    exact ⟨heq, h⟩

variable [AddCommMonoid M] (f : ∀ a, β a → M)

theorem total_insert (a : α) (b : β a) : total f (s.insert a b) = f a b + total f (s.erase a) := by
  unfold total
  rw [AList.entries_insert, List.map_cons, List.sum_cons]
  rfl

theorem total_erase {a : α} {b : β a} (h : s.lookup a = some b) :
    total f s = f a b + total f (s.erase a) := by
  unfold total
  rw [((erase_perm h).map _).sum_eq, List.map_cons, List.sum_cons]

end Ambar.Lib
