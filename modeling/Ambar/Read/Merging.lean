import Ambar.Format.Encoding
import Ambar.Lib.Merge

/-!
# The merging iterator

`new_merging_iterator` (`src/merger.cpp`): with no child an empty iterator, with one
child the child itself, else a `MergingIterator`.

* `Merged.followsUnless`: it follows the sorted union of its children's lists until one of
  them fails, and then its status says so (`Merged.status_of_failed`).
* `mergingIterator_over_lists`: any sequence of calls.
-/

namespace Ambar

open Lib (Cursor Follows FollowsUnless MergePos Merges MergeAt ChildFailed Move posCursor keyBelow mergeCursor)

/-- What `new_merging_iterator` returns (lines 163–168). -/
inductive Merged (σ : Type*) where
  | empty
  | child (c : σ)
  | merging (s : MergePos σ)

namespace Merged

variable {σ E κ : Type*} [LinearOrder κ] (key : E → κ)

/-- `new_merging_iterator` (lines 163–168). -/
def newMergingIterator : (children : List σ) → Merged σ
  | [] => empty
  | [c] => child c
  | children => merging ⟨children, none, .forward⟩

/-- A move of the iterator; an empty one does not move. -/
def move (C : Cursor σ E κ) (m : Move κ) : Merged σ → Merged σ
  | empty => empty
  | child c => child (C.move m c)
  | merging s => merging ((mergeCursor key C).move m s)

/-- The iterator. -/
def cursor (C : Cursor σ E κ) : Cursor (Merged σ) E κ where
  current
    | empty => none
    | child c => C.current c
    | merging s => (mergeCursor key C).current s
  seekToFirst := move key C .seekToFirst
  seekToLast := move key C .seekToLast
  seek k := move key C (.seek k)
  next := move key C .next
  prev := move key C .prev

/-- `status` (lines 94–102). -/
def status (childStatus : σ → Status) : Merged σ → Status
  | empty => .ok
  | child c => childStatus c
  | merging s => ((s.children.map childStatus).find? (· ≠ .ok)).getD .ok

variable {key} {lists : List (List E)} {union : List E} {R : ℕ → σ → Option ℕ → Prop} {bad : σ → Prop}
  {C : Cursor σ E κ}

theorem cursor_move (m : Move κ) (t : Merged σ) : (cursor key C).move m t = move key C m t := by
  cases m <;> rfl

/-- Positions of the iterator in the union of the lists. -/
def At (key : E → κ) (lists : List (List E)) (union : List E) (R : ℕ → σ → Option ℕ → Prop) :
    Merged σ → Option ℕ → Prop
  | empty, p => lists = [] ∧ p = none
  | child c, p => lists = [union] ∧ R 0 c p
  | merging s, p => MergeAt key lists union R s p

/-- A child has failed. -/
def Failed (bad : σ → Prop) : Merged σ → Prop
  | empty => False
  | child c => bad c
  | merging s => ChildFailed bad s

/-- **The merging iterator follows the union** until a child fails. -/
theorem followsUnless (h : Merges key lists union)
    (hC : ∀ (m : ℕ) (l : List E), lists[m]? = some l → FollowsUnless C (keyBelow key) l (R m) bad)
    (hsticky : ∀ c (m : Move κ), bad c → bad (C.move m c)) :
    FollowsUnless (cursor key C) (keyBelow key) union (At key lists union R) (Failed bad) where
  current := by
    intro t p ht
    cases t with
    | empty =>
      rw [ht.2]
      rfl
    | child c => exact (hC 0 union (by rw [ht.1]; rfl)).current ht.2
    | merging s => exact (h.followsUnless hC hsticky).current ht
  bound := by
    intro t i ht
    cases t with
    | empty => cases ht.2
    | child c => exact (hC 0 union (by rw [ht.1]; rfl)).bound ht.2
    | merging s => exact (h.followsUnless hC hsticky).bound ht
  step := by
    intro t p m ht hm
    rw [cursor_move]
    cases t with
    | empty =>
      -- the union of no lists is empty, and every move stays past its ends
      have hnil : union = [] := by
        have := h.perm
        rw [ht.1] at this
        exact this.eq_nil
      refine Or.inl ⟨ht.1, ?_⟩
      rw [ht.2] at hm ⊢
      rw [hnil]
      cases m with
      | next => cases hm
      | prev => cases hm
      | _ => rfl
    | child c =>
      exact ((hC 0 union (by rw [ht.1]; rfl)).step m ht.2 hm).imp_left fun hc => ⟨ht.1, hc⟩
    | merging s => exact (h.followsUnless hC hsticky).step m ht hm
  sticky := by
    intro t m ht
    rw [cursor_move]
    cases t with
    | empty => exact ht
    | child c => exact hsticky c m ht
    | merging s => exact (h.followsUnless hC hsticky).sticky m ht

/-- A failure is reported. -/
theorem status_of_failed {childStatus : σ → Status} (hbad : ∀ c, bad c → childStatus c ≠ .ok) {t : Merged σ}
    (ht : Failed bad t) : t.status childStatus ≠ .ok := by
  cases t with
  | empty => exact ht.elim
  | child c => exact hbad c ht
  | merging s =>
    obtain ⟨c, hc, hb⟩ := ht
    rw [status]
    cases hfind : (s.children.map childStatus).find? (· ≠ .ok) with
    | none =>
      have := List.find?_eq_none.mp hfind _ (List.mem_map_of_mem hc)
      exact absurd (hbad c hb) (by simpa using this)
    | some st =>
      have hst := List.find?_some hfind
      exact of_decide_eq_true hst

/-- Where a new iterator stands. -/
theorem at_new (h : Merges key lists union) {children : List σ} {q : ℕ → Option ℕ}
    (hlength : children.length = lists.length) (hq : ∀ (m : ℕ) (c : σ), children[m]? = some c → R m c (q m)) :
    At key lists union R (newMergingIterator children) (if lists.length = 1 then q 0 else none) := by
  match children, lists, hlength with
  | [], [], _ => exact ⟨rfl, rfl⟩
  | [c], [l], _ =>
    have hunion : union = l := by
      have hperm := h.perm
      rw [List.flatten_singleton] at hperm
      exact hperm.eq_of_pairwise (fun a b _ _ hab hba => absurd (hab.trans hba) (lt_irrefl _)) h.sorted
        (h.lists_sorted l List.mem_cons_self)
    exact ⟨by rw [hunion], hq 0 c rfl⟩
  | c :: c' :: children, l :: l' :: lists, hlen =>
    rw [if_neg (by simp)]
    exact ⟨rfl, fun m _ => q m, hlen, fun m l c _ hc => hq m c hc⟩

end Merged

/-- The sorted union of lists without a key in common. -/
theorem merges_mergeSort {E κ : Type*} [LinearOrder κ] {key : E → κ} {lists : List (List E)}
    (hsorted : ∀ l ∈ lists, l.Pairwise fun a b => key a < key b)
    (hdistinct : (lists.flatten.map key).Nodup) :
    Merges key lists (lists.flatten.mergeSort fun a b => decide (key a ≤ key b)) where
  sorted := by
    have hle := @List.pairwise_mergeSort _ (fun a b : E => decide (key a ≤ key b))
      (fun a b c hab hbc => decide_eq_true ((of_decide_eq_true hab).trans (of_decide_eq_true hbc)))
      (fun a b => by simpa using le_total (key a) (key b)) lists.flatten
    have hne : ((lists.flatten.mergeSort fun a b => decide (key a ≤ key b)).map key).Nodup :=
      ((List.mergeSort_perm _ _).map key).nodup_iff.mpr hdistinct
    rw [List.Nodup, List.pairwise_map] at hne
    exact (hle.and hne).imp fun hab => lt_of_le_of_ne (of_decide_eq_true hab.1) hab.2
  perm := List.mergeSort_perm _ _
  lists_sorted := hsorted

/-- **A merging iterator over sorted lists without a key in common.** Every sequence of
    calls leaves it where it leaves a cursor over their sorted union. -/
theorem mergingIterator_over_lists {σ E κ : Type*} [LinearOrder κ] {key : E → κ} {C : Cursor σ E κ}
    {lists : List (List E)} {children : List σ} {R : ℕ → σ → Option ℕ → Prop} {q : ℕ → Option ℕ}
    (hsorted : ∀ l ∈ lists, l.Pairwise fun a b => key a < key b)
    (hdistinct : (lists.flatten.map key).Nodup) (hlength : children.length = lists.length)
    (hfollows : ∀ (m : ℕ) (l : List E), lists[m]? = some l → Follows C (keyBelow key) l (R m))
    (hstart : ∀ (m : ℕ) (c : σ), children[m]? = some c → R m c (q m)) {moves : List (Move κ)}
    (hlegal : (Merged.cursor key C).Legal moves (Merged.newMergingIterator children)) :
    let union := lists.flatten.mergeSort fun a b => decide (key a ≤ key b)
    (Merged.cursor key C).current ((Merged.cursor key C).run moves (Merged.newMergingIterator children)) =
      (posCursor (keyBelow key) union).current ((posCursor (keyBelow key) union).run moves
        (if lists.length = 1 then q 0 else none)) := by
  intro union
  have h : Merges key lists union := merges_mergeSort hsorted hdistinct
  have hunless := Merged.followsUnless h (fun m l hl => (hfollows m l hl).unless) fun _ _ hf => hf
  rcases hunless.run (Merged.at_new h hlength hstart) hlegal with hrun | hbad
  · exact hunless.current hrun
  · -- no child fails
    generalize (Merged.cursor key C).run moves (Merged.newMergingIterator children) = t at hbad
    cases t with
    | empty => exact hbad.elim
    | child c => exact hbad.elim
    | merging s =>
      obtain ⟨_, -, hf⟩ := hbad
      exact hf.elim

/-- Three lists, one of them empty, walked forward and back. -/
theorem mergingIterator_turns :
    let C := Lib.listCursor (id : ℕ → ℕ)
    let start := Merged.newMergingIterator ([[1, 4], [2], []].map Lib.ListPos.new)
    (Merged.cursor id C).current ((Merged.cursor id C).run [.seekToFirst, .next, .next, .prev] start) =
      some 2 := by
  intro C start
  have hlists := @mergingIterator_over_lists _ _ _ _ id C [[1, 4], [2], []]
    ([[1, 4], [2], []].map Lib.ListPos.new)
    (fun m s p => ∃ l, [[1, 4], [2], []][m]? = some l ∧ s.list = l ∧ p = Lib.posOf l s.index)
    (fun _ => none) (by decide) (by decide) rfl (fun m l hl => by
      have hR : (fun (s : Lib.ListPos ℕ) p => ∃ l, [[1, 4], [2], []][m]? = some l ∧ s.list = l ∧
          p = Lib.posOf l s.index) = fun s p => s.list = l ∧ p = Lib.posOf l s.index := by
        funext s p
        simp only [hl, Option.some.injEq, exists_eq_left']
      rw [hR]
      exact Lib.listCursor_follows id l) (fun m c hc => by
        rw [List.getElem?_map, Option.map_eq_some_iff] at hc
        obtain ⟨l, hl, rfl⟩ := hc
        exact ⟨l, hl, rfl, (Lib.posOf_of_le le_rfl).symm⟩)
    [.seekToFirst, .next, .next, .prev] (by decide)
  have hunion : ([[1, 4], [2], []].flatten.mergeSort fun a b => decide (id a ≤ id b)) = [1, 2, 4] := by
    simp [List.mergeSort, List.MergeSort.Internal.splitInTwo]
  rw [hunion] at hlists
  exact hlists.trans (by decide)

end Ambar
