import Mathlib.Data.Finset.Lattice.Fold
import Mathlib.Data.List.Sort
import Mathlib.Data.List.TakeWhile
import Mathlib.Tactic

/-!
# Ordered sets as sorted lists

A `std::set` under a comparator is a list strictly sorted by a key of a linear
order. Insertion leaves the set alone when an equivalent element is there.
Merging walks the second set and copies, before each of its elements, the
elements of the first that `std::upper_bound` puts before it.

* `mem_insertByKey`, `sortedBy_insertByKey`: insertion.
* `mem_mergeByKey`, `sortedBy_mergeByKey`: merging two sets of distinct keys.
* `SortedBy.ext`: a sorted list is determined by its elements.
* `OrderedSet`: a sorted list with its proof; `OrderedSet.foldl_insert` rebuilds
  one from its elements in order.
-/

namespace Ambar.Lib

variable {α κ : Type*} [LinearOrder κ] (key : α → κ)

/-- Strictly sorted by `key`. -/
def SortedBy (l : List α) : Prop := l.Pairwise fun a b => key a < key b

/-- `std::set::insert`. -/
def insertByKey (a : α) : List α → List α
  | [] => [a]
  | b :: l =>
    if key a < key b then a :: b :: l
    else if key b < key a then b :: insertByKey a l
    else b :: l

/-- The elements of `base` and `added` in order; before each element of `added`
    the elements of `base` below its `upper_bound`. -/
def mergeByKey : (base added : List α) → List α
  | base, [] => base
  | base, a :: added =>
    base.takeWhile (fun b => !decide (key a < key b)) ++
      a :: mergeByKey (base.dropWhile fun b => !decide (key a < key b)) added

variable {key} {a x : α} {l l' base added : List α}

theorem SortedBy.ext (h : SortedBy key l) (h' : SortedBy key l') (hmem : ∀ x, x ∈ l ↔ x ∈ l') :
    l = l' := by
  have : Std.Antisymm fun a b : α => key a < key b := ⟨fun a b h h' => absurd (h.trans h') (lt_irrefl _)⟩
  have : Std.Irrefl fun a b : α => key a < key b := ⟨fun a => lt_irrefl _⟩
  exact List.Pairwise.eq_of_mem_iff h h' hmem

theorem SortedBy.sublist (h : SortedBy key l) (hs : l'.Sublist l) : SortedBy key l' :=
  List.Pairwise.sublist hs h

theorem SortedBy.injOn (h : SortedBy key l) (ha : a ∈ l) (hx : x ∈ l) (hk : key a = key x) :
    a = x := by
  induction l with
  | nil => simp at ha
  | cons b l ih =>
    obtain ⟨hb, hl⟩ := List.pairwise_cons.mp h
    rcases List.mem_cons.mp ha with ha' | ha' <;> rcases List.mem_cons.mp hx with hx' | hx'
    · exact ha'.trans hx'.symm
    · have := hb x hx'
      rw [← ha', hk] at this
      exact absurd this (lt_irrefl _)
    · have := hb a ha'
      rw [← hx', hk] at this
      exact absurd this (lt_irrefl _)
    · exact ih hl ha' hx'

theorem insertByKey_cons {b : α} : insertByKey key a (b :: l) =
    if key a < key b then a :: b :: l
    else if key b < key a then b :: insertByKey key a l else b :: l := rfl

theorem mem_of_mem_insertByKey (h : x ∈ insertByKey key a l) : x = a ∨ x ∈ l := by
  induction l with
  | nil => exact Or.inl (List.mem_singleton.mp h)
  | cons b l ih =>
    rw [insertByKey_cons] at h
    split_ifs at h with h1 h2
    · simpa using h
    · rcases List.mem_cons.mp h with rfl | h
      · simp
      · exact (ih h).imp_right (List.mem_cons_of_mem _)
    · exact Or.inr h

theorem mem_insertByKey_of_mem (h : x ∈ l) : x ∈ insertByKey key a l := by
  induction l with
  | nil => simp at h
  | cons b l ih =>
    rw [insertByKey_cons]
    split_ifs with h1 h2
    · exact List.mem_cons_of_mem _ h
    · rcases List.mem_cons.mp h with rfl | h
      · simp
      · exact List.mem_cons_of_mem _ (ih h)
    · exact h

/-- Where no element has the key of `a`, `a` is added. -/
theorem mem_insertByKey (hne : ∀ b ∈ l, key b ≠ key a) :
    x ∈ insertByKey key a l ↔ x = a ∨ x ∈ l := by
  refine ⟨mem_of_mem_insertByKey, ?_⟩
  rintro (rfl | h)
  · induction l with
    | nil => exact List.mem_singleton_self x
    | cons b l ih =>
      rw [insertByKey_cons]
      split_ifs with h1 h2
      · simp
      · exact List.mem_cons_of_mem _ (ih fun c hc => hne c (List.mem_cons_of_mem _ hc))
      · exact absurd (le_antisymm (not_lt.mp h1) (not_lt.mp h2)) (hne b (by simp))
  · exact mem_insertByKey_of_mem h

theorem sortedBy_insertByKey (h : SortedBy key l) : SortedBy key (insertByKey key a l) := by
  induction l with
  | nil => exact List.pairwise_singleton _ a
  | cons b l ih =>
    obtain ⟨hb, hl⟩ := List.pairwise_cons.mp h
    rw [insertByKey_cons]
    split_ifs with h1 h2
    · refine List.pairwise_cons.mpr ⟨fun c hc => ?_, h⟩
      rcases List.mem_cons.mp hc with rfl | hc
      · exact h1
      · exact h1.trans (hb c hc)
    · refine List.pairwise_cons.mpr ⟨fun c hc => ?_, ih hl⟩
      rcases mem_of_mem_insertByKey hc with rfl | hc
      · exact h2
      · exact hb c hc
    · exact h

/-- Insertion keeps to a change of elements that keeps the keys. -/
theorem map_insertByKey {β : Type*} {f : α → β} {key' : β → κ}
    (h : ∀ b ∈ a :: l, key' (f b) = key b) :
    insertByKey key' (f a) (l.map f) = (insertByKey key a l).map f := by
  induction l with
  | nil => rfl
  | cons b l ih =>
    have ha := h a (by simp)
    have hb := h b (by simp)
    have ih' := ih fun c hc => h c (by
      rcases List.mem_cons.mp hc with rfl | hc
      · simp
      · simp [hc])
    rw [List.map_cons, insertByKey_cons, insertByKey_cons, ha, hb]
    split_ifs with h1 h2
    · rfl
    · rw [ih', List.map_cons]
    · rfl

/-! ## Sets that carry their order -/

/-- A `std::set` under the comparator of `key`. -/
structure OrderedSet {α κ : Type*} [LinearOrder κ] (key : α → κ) where
  toList : List α
  sorted : SortedBy key toList

namespace OrderedSet

@[ext] theorem ext {s t : OrderedSet key} (h : s.toList = t.toList) : s = t := by
  cases s
  cases t
  simpa using h

/-- The empty set. -/
def empty : OrderedSet key := ⟨[], List.Pairwise.nil⟩

/-- `std::set::insert`. -/
def insert (s : OrderedSet key) (a : α) : OrderedSet key :=
  ⟨insertByKey key a s.toList, sortedBy_insertByKey s.sorted⟩

instance : Membership α (OrderedSet key) := ⟨fun s a => a ∈ s.toList⟩

theorem mem_def {s : OrderedSet key} : a ∈ s ↔ a ∈ s.toList := Iff.rfl

@[simp] theorem not_mem_empty : ¬ a ∈ (empty : OrderedSet key) := by
  simp [mem_def, empty]

theorem mem_insert (hinj : Function.Injective key) {s : OrderedSet key} :
    x ∈ s.insert a ↔ x = a ∨ x ∈ s := by
  refine ⟨mem_of_mem_insertByKey, ?_⟩
  rintro (rfl | h)
  · by_cases hx : x ∈ s
    · exact mem_insertByKey_of_mem hx
    · refine (mem_insertByKey fun b hb heq => hx ?_).mpr (Or.inl rfl)
      rwa [hinj heq] at hb
  · exact mem_insertByKey_of_mem h

/-- `std::set::erase`. -/
def erase (s : OrderedSet key) (a : α) : OrderedSet key :=
  ⟨s.toList.filter fun b => decide (key b ≠ key a), s.sorted.sublist List.filter_sublist⟩

theorem mem_erase (hinj : Function.Injective key) {s : OrderedSet key} :
    x ∈ s.erase a ↔ x ∈ s ∧ x ≠ a := by
  simp [mem_def, erase, hinj.eq_iff]

/-- The first element is the least. -/
theorem head_le {s : OrderedSet key} (h : s.toList.head? = some a) (hx : x ∈ s) :
    key a ≤ key x := by
  obtain ⟨l, hl⟩ := List.head?_eq_some_iff.mp h
  have hs := s.sorted
  rw [mem_def, hl] at hx
  rw [hl] at hs
  rcases List.mem_cons.mp hx with rfl | hx
  · exact le_rfl
  · exact ((List.pairwise_cons.mp hs).1 x hx).le

end OrderedSet

theorem insertByKey_of_forall_lt (h : ∀ b ∈ l, key b < key a) : insertByKey key a l = l ++ [a] := by
  induction l with
  | nil => rfl
  | cons b l ih =>
    have hb := h b (by simp)
    rw [insertByKey_cons, if_neg (not_lt.mpr hb.le), if_pos hb,
      ih fun c hc => h c (List.mem_cons_of_mem _ hc), List.cons_append]

/-- Inserting the elements of a sorted list in order appends it. -/
theorem OrderedSet.foldl_insert (s : OrderedSet key) (h : SortedBy key (s.toList ++ l)) :
    l.foldl OrderedSet.insert s = ⟨s.toList ++ l, h⟩ := by
  induction l generalizing s with
  | nil => exact OrderedSet.ext (by simp)
  | cons a l ih =>
    have hins : (s.insert a).toList = s.toList ++ [a] :=
      insertByKey_of_forall_lt fun b hb => (List.pairwise_append.mp h).2.2 b hb a (by simp)
    have h' : SortedBy key ((s.insert a).toList ++ l) := by
      rw [hins]
      simpa using h
    rw [List.foldl_cons, ih (s.insert a) h']
    exact OrderedSet.ext (by simp [hins])

/-! ## Merging -/

theorem mem_mergeByKey : x ∈ mergeByKey key base added ↔ x ∈ base ∨ x ∈ added := by
  induction added generalizing base with
  | nil => simp [mergeByKey]
  | cons a added ih =>
    rw [mergeByKey, List.mem_append, List.mem_cons, ih, List.mem_cons]
    conv_rhs => rw [← List.takeWhile_append_dropWhile (p := fun b => !decide (key a < key b))
      (l := base), List.mem_append]
    tauto

theorem sortedBy_mergeByKey (hb : SortedBy key base) (ha : SortedBy key added)
    (hne : ∀ b ∈ base, ∀ a ∈ added, key b ≠ key a) : SortedBy key (mergeByKey key base added) := by
  induction added generalizing base with
  | nil => exact hb
  | cons a added ih =>
    obtain ⟨ha1, ha2⟩ := List.pairwise_cons.mp ha
    rw [mergeByKey]
    set p : α → Bool := fun b => !decide (key a < key b) with hp
    have hsplit : base = base.takeWhile p ++ base.dropWhile p := by simp
    have hbefore : ∀ b ∈ base.takeWhile p, key b < key a := by
      intro b hbm
      have h1 : p b = true := List.mem_takeWhile_imp hbm
      simp only [hp, Bool.not_eq_true', decide_eq_false_iff_not, not_lt] at h1
      exact lt_of_le_of_ne h1 (hne b (List.takeWhile_subset p hbm) a (by simp))
    have hafter : ∀ b ∈ base.dropWhile p, key a < key b := by
      intro b hbm
      cases hd : base.dropWhile p with
      | nil => simp [hd] at hbm
      | cons c rest =>
        have hc : p c = false := by
          have := List.head_dropWhile_not p (l := base) (by simp [hd])
          simpa [hd] using this
        have hac : key a < key c := by simpa [hp] using hc
        rw [hd] at hbm
        rcases List.mem_cons.mp hbm with rfl | hbm
        · exact hac
        · have hsub : SortedBy key (c :: rest) :=
            hd ▸ hb.sublist (List.dropWhile_sublist p)
          exact hac.trans ((List.pairwise_cons.mp hsub).1 b hbm)
    have ih' := ih (hb.sublist (List.dropWhile_sublist p)) ha2 fun b hb' a' ha' =>
      hne b ((List.dropWhile_sublist p).subset hb') a' (List.mem_cons_of_mem _ ha')
    refine List.pairwise_append.mpr ⟨hb.sublist (List.takeWhile_sublist p),
      List.pairwise_cons.mpr ⟨fun c hc => ?_, ih'⟩, fun b hbm c hc => ?_⟩
    · rcases mem_mergeByKey.mp hc with hc | hc
      · exact hafter c hc
      · exact ha1 c hc
    · have h1 := hbefore b hbm
      rcases List.mem_cons.mp hc with rfl | hc
      · exact h1
      · rcases mem_mergeByKey.mp hc with hc | hc
        · exact h1.trans (hafter c hc)
        · exact h1.trans (ha1 c hc)

end Ambar.Lib
