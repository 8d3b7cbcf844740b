import Mathlib.Data.Finset.Lattice.Fold
import Mathlib.Data.List.Sort
import Mathlib.Tactic

/-!
# Views of a multi-version store

A multi-version store is a set of entries. Each entry belongs to a user key, has
a place in a linear order in which newer versions of one user key come first,
carries a sequence number, and either shows a value or marks a deletion. A
reader at sequence `s` sees, of each user key, the first entry with a sequence
of at most `s`.

* `isNewest_union_left`, `isNewest_union_right`: a store made of two parts, the
  first newer than the second, is read part by part.
* `Finds.union`: the same for what a search answers.
* `shows_insert_of_seen`, `shows_insert_of_unseen`: what a new version changes.
* `shows_diff_iff`: removing versions shadowed for every reader from `h` on, and
  deletions with nothing left to hide, changes no view from `h` on.
-/

namespace Ambar.Lib

/-- How entries of type `E` are read: user keys `U`, order keys `K`, values `V`;
    `shown e = none` marks a deletion. -/
structure Versioning (E U K V : Type*) where
  user : E → U
  key : E → K
  seq : E → ℕ
  shown : E → Option V

namespace Versioning

variable {E U K V : Type*} [LinearOrder K] (M : Versioning E U K V)

/-- `e` is the version of `u` that a reader at sequence `s` sees. -/
def IsNewest (S : Set E) (u : U) (s : ℕ) (e : E) : Prop :=
  e ∈ S ∧ M.user e = u ∧ M.seq e ≤ s ∧
    ∀ e' ∈ S, M.user e' = u → M.seq e' ≤ s → M.key e ≤ M.key e'

/-- A reader of `S` at sequence `s` is shown the value `v` for `u`. -/
def Shows (S : Set E) (u : U) (s : ℕ) (v : V) : Prop :=
  ∃ e, M.IsNewest S u s e ∧ M.shown e = some v

variable {M} {S T : Set E} {u : U} {s : ℕ} {e e' : E} {v : V}

theorem IsNewest.unique (hinj : Set.InjOn M.key S) (h : M.IsNewest S u s e)
    (h' : M.IsNewest S u s e') : e = e' := by
  obtain ⟨hm, hu, hs, hle⟩ := h
  obtain ⟨hm', hu', hs', hle'⟩ := h'
  exact hinj hm hm' (le_antisymm (hle e' hm' hu' hs') (hle' e hm hu hs))

/-- A smaller store that still holds the newest version has the same one. -/
theorem IsNewest.subset (h : M.IsNewest S u s e) (hTS : T ⊆ S) (he : e ∈ T) :
    M.IsNewest T u s e :=
  ⟨he, h.2.1, h.2.2.1, fun e' he' => h.2.2.2 e' (hTS he')⟩

/-- In a finite store every user key with a version of sequence at most `s` has
    a newest one. -/
theorem exists_isNewest (hfin : S.Finite) (he : e ∈ S) (hs : M.seq e ≤ s) :
    ∃ e', M.IsNewest S (M.user e) s e' := by
  have hne : {x | x ∈ S ∧ M.user x = M.user e ∧ M.seq x ≤ s}.Nonempty := ⟨e, he, rfl, hs⟩
  have hf : {x | x ∈ S ∧ M.user x = M.user e ∧ M.seq x ≤ s}.Finite :=
    hfin.subset fun x hx => hx.1
  obtain ⟨m, ⟨hm, hu, hs'⟩, hmin⟩ := Set.exists_min_image _ M.key hf hne
  exact ⟨m, hm, hu, hs', fun x hx hxu hxs => hmin x ⟨hx, hxu, hxs⟩⟩

/-! ## Stores made of parts -/

theorem isNewest_union_left
    (hnew : ∀ a ∈ S, ∀ b ∈ T, M.user a = u → M.user b = u → M.key a < M.key b)
    (h : M.IsNewest S u s e) : M.IsNewest (S ∪ T) u s e := by
  obtain ⟨hm, hu, hs, hle⟩ := h
  refine ⟨Or.inl hm, hu, hs, fun e' he' hu' hs' => ?_⟩
  rcases he' with he' | he'
  · exact hle e' he' hu' hs'
  · exact (hnew e hm e' he' hu hu').le

theorem isNewest_union_right (hnone : ∀ a ∈ S, M.user a = u → s < M.seq a)
    (h : M.IsNewest T u s e) : M.IsNewest (S ∪ T) u s e := by
  obtain ⟨hm, hu, hs, hle⟩ := h
  refine ⟨Or.inr hm, hu, hs, fun e' he' hu' hs' => ?_⟩
  rcases he' with he' | he'
  · have := hnone e' he' hu'
    omega
  · exact hle e' he' hu' hs'

/-- What a search of `S` for the version of `u` seen at `s` may answer. -/
def Finds (M : Versioning E U K V) (S : Set E) (u : U) (s : ℕ) : Option E → Prop
  | some e => M.IsNewest S u s e
  | none => ∀ e ∈ S, M.user e = u → s < M.seq e

/-- A newer part is searched first. -/
theorem Finds.union {a b : Option E} (hS : M.Finds S u s a) (hT : M.Finds T u s b)
    (hnew : ∀ a ∈ S, ∀ b ∈ T, M.user a = u → M.user b = u → M.key a < M.key b) :
    M.Finds (S ∪ T) u s (a.or b) := by
  cases a with
  | some e => exact isNewest_union_left hnew hS
  | none =>
    cases b with
    | some e => exact isNewest_union_right hS hT
    | none => exact fun e he => he.elim (hS e) (hT e)

/-- Entries of other user keys do not matter. -/
theorem Finds.of_same_key {a : Option E} (h : M.Finds S u s a) (hST : S ⊆ T)
    (hTS : ∀ e ∈ T, M.user e = u → e ∈ S) : M.Finds T u s a := by
  cases a with
  | none => exact fun e he heu => h e (hTS e he heu) heu
  | some e =>
    obtain ⟨he, hu, hs, hle⟩ := h
    exact ⟨hST he, hu, hs, fun e' he' hu' hs' => hle e' (hTS e' he' hu') hu' hs'⟩

theorem Finds.shows_iff {a : Option E} (h : M.Finds S u s a) (hinj : Set.InjOn M.key S) :
    M.Shows S u s v ↔ a.bind M.shown = some v := by
  cases a with
  | none =>
    simp only [Option.bind_none, reduceCtorEq, iff_false]
    rintro ⟨e, he, -⟩
    have := h e he.1 he.2.1
    have := he.2.2.1
    omega
  | some e =>
    refine ⟨fun ⟨e', he', hv⟩ => ?_, fun hv => ⟨e, h, hv⟩⟩
    rw [IsNewest.unique hinj he' h] at hv
    exact hv

/-- A version newer than all others of its user key is what its readers see. -/
theorem shows_insert_of_seen {x : E} (hkey : ∀ e ∈ S, M.user e = u → M.key x < M.key e)
    (hu : M.user x = u) (hs : M.seq x ≤ s) :
    M.Shows (insert x S) u s v ↔ M.shown x = some v := by
  constructor
  · rintro ⟨e, ⟨he, heu, hse, hle⟩, hv⟩
    rcases he with rfl | he
    · exact hv
    · exact absurd (hkey e he heu) (not_lt.mpr (hle x (Set.mem_insert _ _) hu hs))
  · intro hv
    refine ⟨x, ⟨Set.mem_insert _ _, hu, hs, fun e he heu _ => ?_⟩, hv⟩
    rcases he with rfl | he
    · exact le_rfl
    · exact (hkey e he heu).le

/-- A version of another user key, or above the reader's sequence, is not seen. -/
theorem shows_insert_of_unseen {x : E} (hx : M.user x = u → s < M.seq x) :
    M.Shows (insert x S) u s v ↔ M.Shows S u s v := by
  have hne : ∀ e ∈ insert x S, M.user e = u → M.seq e ≤ s → e ∈ S := by
    rintro e (rfl | he) hu hs
    · have := hx hu
      omega
    · exact he
  constructor
  · rintro ⟨e, he, hv⟩
    exact ⟨e, he.subset (Set.subset_insert _ _) (hne e he.1 he.2.1 he.2.2.1), hv⟩
  · rintro ⟨e, ⟨he, hu, hs, hle⟩, hv⟩
    exact ⟨e, ⟨Or.inr he, hu, hs, fun e' he' hu' hs' => hle e' (hne e' he' hu' hs') hu' hs'⟩, hv⟩

/-! ## Dropping versions -/

/-- `r` may be dropped from `S` for every reader from `h` on: a newer version of
    its user key is visible to all of them, or it is a deletion they all see and
    every older version of its user key goes with it. -/
def Droppable (M : Versioning E U K V) (S R : Set E) (h : ℕ) (r : E) : Prop :=
  (∃ p ∈ S, M.user p = M.user r ∧ M.key p < M.key r ∧ M.seq p ≤ h) ∨
  (M.shown r = none ∧ ∀ e ∈ S, M.user e = M.user r → M.key r < M.key e → e ∈ R)

/-- Dropping droppable versions changes no view from `h` on. -/
theorem shows_diff_iff {R : Set E} {h : ℕ} (hfin : S.Finite) (hinj : Set.InjOn M.key S)
    (hR : ∀ r ∈ R, r ∈ S → M.Droppable S R h r) (hs : h ≤ s) :
    M.Shows (S \ R) u s v ↔ M.Shows S u s v := by
  -- a dropped newest version is a deletion below which nothing stays
  have hdrop : ∀ r ∈ R, M.IsNewest S u s r →
      M.shown r = none ∧ ∀ e ∈ S, M.user e = u → M.key r < M.key e → e ∈ R := by
    rintro r hr ⟨hm, hu, hsr, hle⟩
    rcases hR r hr hm with ⟨p, hp, hpu, hpk, hps⟩ | ⟨hnone, hold⟩
    · exact absurd (hle p hp (hpu.trans hu) (hps.trans hs)) (not_le.mpr hpk)
    · exact ⟨hnone, fun e he heu => hold e he (heu.trans hu.symm)⟩
  constructor
  · rintro ⟨e, he, hv⟩
    obtain ⟨⟨heS, heR⟩, hu, hse, hle⟩ := he
    obtain ⟨m, hm⟩ := exists_isNewest (M := M) hfin heS hse
    rw [hu] at hm
    by_cases hmR : m ∈ R
    · obtain ⟨-, hold⟩ := hdrop m hmR hm
      rcases (hm.2.2.2 e heS hu hse).eq_or_lt with heq | hlt
      · rw [hinj hm.1 heS heq] at hmR
        exact absurd hmR heR
      · exact absurd (hold e heS hu hlt) heR
    · have hme := hle m ⟨hm.1, hmR⟩ hm.2.1 hm.2.2.1
      have : m = e := hinj hm.1 heS (le_antisymm (hm.2.2.2 e heS hu hse) hme)
      exact ⟨m, hm, this ▸ hv⟩
  · rintro ⟨e, he, hv⟩
    have heR : e ∉ R := by
      intro hr
      rw [(hdrop e hr he).1] at hv
      exact Option.some_ne_none v hv.symm
    exact ⟨e, he.subset Set.sdiff_subset ⟨he.1, heR⟩, hv⟩

end Versioning

end Ambar.Lib
