import Mathlib.Data.List.Infix
import Mathlib.Tactic

/-!
# Readers that refuse cut input

A reader takes the front of an input and leaves the rest. It reads `a` from a block of input
when it finds `a` in front of anything, and refuses every proper prefix of the block.

* `Reads.bind`: readers one after the other.
* `Reads.map`: the value read, changed.
* `prefix_append_cases`: a prefix of two blocks ends in the first, or holds it whole.
-/

namespace Ambar.Lib

variable {β α γ : Type*}

/-- A prefix of two blocks ends inside the first or holds it whole. -/
theorem prefix_append_cases {p xs ys : List β} (h : p <+: xs ++ ys) :
    (p <+: xs ∧ p ≠ xs) ∨ ∃ q, p = xs ++ q ∧ q <+: ys := by
  obtain ⟨t, ht⟩ := h
  rcases List.append_eq_append_iff.mp ht with ⟨u, rfl, -⟩ | ⟨q, rfl, rfl⟩
  · by_cases heq : p = p ++ u
    · exact Or.inr ⟨[], by rw [List.append_nil]; exact heq, List.nil_prefix⟩
    · exact Or.inl ⟨List.prefix_append p u, heq⟩
  · exact Or.inr ⟨q, rfl, List.prefix_append q t⟩

/-- The reader finds `a` in `block`, and nothing in a proper prefix of it. -/
structure Reads (get : List β → Option (α × List β)) (block : List β) (a : α) : Prop where
  whole : ∀ rest, get (block ++ rest) = some (a, rest)
  cut : ∀ p, p <+: block → p ≠ block → get p = none

theorem Reads.bind {get : List β → Option (α × List β)} {xs ys : List β} {a : α} {c : γ}
    (h : Reads get xs a) (next : α → List β → Option (γ × List β)) (h' : Reads (next a) ys c) :
    Reads (fun input => (get input).bind fun r => next r.1 r.2) (xs ++ ys) c where
  whole rest := by
    rw [List.append_assoc, h.whole, Option.bind_some]
    exact h'.whole rest
  cut p hp hne := by
    rcases prefix_append_cases hp with ⟨hxs, hxs'⟩ | ⟨q, rfl, hq⟩
    · rw [h.cut p hxs hxs', Option.bind_none]
    · rw [h.whole, Option.bind_some]
      exact h'.cut q hq fun heq => hne (heq ▸ rfl)

theorem Reads.map {get : List β → Option (α × List β)} {xs : List β} {a : α} (h : Reads get xs a)
    (f : α → γ) : Reads (fun input => (get input).bind fun r => some (f r.1, r.2)) xs (f a) where
  whole rest := by rw [h.whole, Option.bind_some]
  cut p hp hne := by rw [h.cut p hp hne, Option.bind_none]

end Ambar.Lib
