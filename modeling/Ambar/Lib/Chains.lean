import Mathlib.Data.List.Nodup
import Mathlib.Tactic

/-!
# Chains of nodes

Nodes are numbers, and each has a slot at every level; once written, a slot holds a pointer to a
node or null. Following one level from a node leads through a chain.

* `Chain.slot`, `Chain.drop`: what a slot holds, and the rest of a chain from a node of it.
* `Chain.congr`: a chain depends only on the slots of its nodes.
* `Chain.splice`: a node is put between two others by one slot of its own and one of the node
  before it.
-/

namespace Ambar.Lib

/-- The slots, by node and level: no value where nothing was written, `some none` for null. -/
abbrev Slots := ℕ → ℕ → Option (Option ℕ)

/-- A slot is written. -/
def Slots.write (slots : Slots) (node level : ℕ) (pointer : Option ℕ) : Slots := fun n l =>
  if n = node ∧ l = level then some pointer else slots n l

theorem Slots.write_self (slots : Slots) (node level : ℕ) (pointer : Option ℕ) :
    slots.write node level pointer node level = some pointer :=
  if_pos ⟨rfl, rfl⟩

theorem Slots.write_of_ne (slots : Slots) {node level n l : ℕ} (pointer : Option ℕ)
    (h : n ≠ node ∨ l ≠ level) : slots.write node level pointer n l = slots n l :=
  if_neg fun ⟨hn, hl⟩ => h.elim (fun h => h hn) fun h => h hl

/-- The nodes met by following a level from a node to the end. -/
def Chain (slots : Slots) (level : ℕ) : ℕ → List ℕ → Prop
  | n, [] => slots n level = some none
  | n, m :: rest => slots n level = some (some m) ∧ Chain slots level m rest

variable {slots slots' : Slots} {level n x : ℕ} {a b c c' : List ℕ}

theorem Chain.slot (h : Chain slots level n c) : slots n level = some c.head? := by
  cases c with
  | nil => exact h
  | cons m rest => exact h.1

/-- From the last node of a part of the chain the rest of it follows. -/
theorem Chain.drop (h : Chain slots level n (a ++ b)) : Chain slots level (a.getLastD n) b := by
  induction a generalizing n with
  | nil => exact h
  | cons m rest ih =>
    rw [List.getLastD_cons]
    exact ih h.2

theorem Chain.congr (h : Chain slots level n c)
    (hsame : ∀ m ∈ n :: c, slots' m level = slots m level) : Chain slots' level n c := by
  induction c generalizing n with
  | nil => exact (hsame n List.mem_cons_self).trans h
  | cons m rest ih =>
    refine ⟨(hsame n List.mem_cons_self).trans h.1, ih h.2 fun k hk => ?_⟩
    exact hsame k (List.mem_cons_of_mem _ hk)

theorem getLastD_mem (n : ℕ) (a : List ℕ) : a.getLastD n ∈ n :: a := by
  induction a generalizing n with
  | nil => exact List.mem_cons_self
  | cons m rest ih =>
    rw [List.getLastD_cons]
    exact List.mem_cons_of_mem _ (ih m)

/-- **A node is put into a chain**: its slot takes over what the slot of the node before it held,
    and that one points to it. -/
theorem Chain.splice (h : Chain slots level n (a ++ b)) (hnodup : (n :: (a ++ b)).Nodup)
    (hx : x ∉ n :: (a ++ b)) (hnew : slots' x level = slots (a.getLastD n) level)
    (hprev : slots' (a.getLastD n) level = some (some x))
    (hother : ∀ m, m ≠ x → m ≠ a.getLastD n → slots' m level = slots m level) :
    Chain slots' level n (a ++ x :: b) := by
  induction a generalizing n with
  | nil =>
    -- the chain after the new node is the old one
    have hrest : ∀ m ∈ b, slots' m level = slots m level := fun m hm =>
      hother m (fun heq => hx (heq ▸ List.mem_cons_of_mem _ hm))
        fun (heq : m = n) => (List.nodup_cons.mp hnodup).1 (heq ▸ hm)
    refine ⟨hprev, ?_⟩
    cases b with
    | nil => exact hnew.trans h
    | cons m rest => exact ⟨hnew.trans h.1, Chain.congr h.2 hrest⟩
  | cons m rest ih =>
    obtain ⟨hn, hnodup'⟩ := List.nodup_cons.mp hnodup
    rw [List.getLastD_cons] at hnew hprev hother
    have hlast : n ≠ rest.getLastD m := fun heq =>
      hn (List.mem_append_left b (heq ▸ getLastD_mem m rest))
    have hne : n ≠ x := fun heq => hx (heq ▸ List.mem_cons_self)
    refine ⟨(hother n hne hlast).trans h.1, ih h.2 hnodup' (fun hmem => ?_) hnew hprev hother⟩
    exact hx (List.mem_cons_of_mem _ hmem)

/-- The last node of a list, if it is chosen, is the last one chosen. -/
theorem getLastD_filter {p : ℕ → Bool} (h : a = [] ∨ p (a.getLastD n) = true) :
    (a.filter p).getLastD n = a.getLastD n := by
  rcases List.eq_nil_or_concat a with rfl | ⟨front, last, rfl⟩
  · rfl
  · have hlast : (front.concat last).getLastD n = last := by
      rw [List.getLastD_eq_getLast?, List.concat_eq_append, List.getLast?_concat]
      rfl
    have hp : p last = true := by
      rcases h with h | h
      · exact absurd h (by simp)
      · rwa [hlast] at h
    rw [hlast, List.concat_eq_append, List.filter_append, List.filter_cons_of_pos hp, List.filter_nil,
      List.getLastD_eq_getLast?, List.getLast?_concat]
    rfl

end Ambar.Lib
