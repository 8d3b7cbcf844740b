import Ambar.Lib.Follows

/-!
# Merging cursors that follow lists

A merging cursor over children that follow sorted lists without a key in common follows
the sorted union of the lists, in both directions and over changes of direction. A child
may fail; the merging cursor has then failed too.

A set of entries in front of a key is a *cut*. Where every child stands on its first entry
behind a cut, the smallest of these entries is the first of the union behind the cut; the
last entries before a cut and the largest of them go together likewise.

* `Merges`: lists and their sorted union.
* `Merges.smallest`, `Merges.largest`: what `find_smallest` and `find_largest` find.
* `Merges.followsUnless`: the merging cursor follows the union until a child fails.
-/

namespace Ambar.Lib

variable {σ E κ : Type*} [LinearOrder κ] {key : E → κ}

/-- The entries before a key. -/
def keyBelow (key : E → κ) (k : κ) (e : E) : Bool := decide (key e < k)

/-- A cursor over a list follows it. -/
theorem listCursor_follows (key : E → κ) (l : List E) :
    Follows (listCursor key) (keyBelow key) l fun s p => s.list = l ∧ p = posOf l s.index where
  current := by
    rintro s p ⟨rfl, rfl⟩
    show s.list[s.index]? = _
    unfold posOf
    split_ifs with hlt
    · rfl
    · exact List.getElem?_eq_none (not_lt.mp hlt)
  bound := by
    rintro s i ⟨rfl, hi⟩
    unfold posOf at hi
    split_ifs at hi with hlt
    rwa [Option.some.inj hi]
  seekToFirst := fun hs => ⟨hs.1, rfl⟩
  seekToLast := by
    rintro s p ⟨rfl, -⟩
    refine ⟨rfl, ?_⟩
    show lastPos s.list = posOf s.list (s.list.length - 1)
    by_cases hnil : s.list = []
    · rw [lastPos, if_pos hnil, hnil]
      rfl
    · have hpos := List.length_pos_iff.mpr hnil
      rw [lastPos, if_neg hnil, posOf_of_lt (by omega)]
  seek := by
    rintro s p k ⟨rfl, -⟩
    refine ⟨rfl, congrArg (posOf s.list) (congrArg (fun q => s.list.findIdx q) ?_)⟩
    funext e
    rw [keyBelow, ← decide_not, decide_eq_decide, not_lt]
  next := by
    rintro s i ⟨rfl, hi⟩
    refine ⟨rfl, ?_⟩
    unfold posOf at hi
    split_ifs at hi with hlt
    rw [Option.some.inj hi]
    rfl
  prev := by
    rintro s i ⟨rfl, hi⟩
    refine ⟨rfl, ?_⟩
    unfold posOf at hi
    split_ifs at hi with hlt
    have hindex := Option.some.inj hi
    show some i = posOf s.list (if s.index = 0 then s.list.length else s.index - 1)
    rw [if_neg (by omega), posOf_of_lt (by omega), ← hindex, Nat.add_sub_cancel]
  prev_zero := by
    rintro s ⟨rfl, hi⟩
    refine ⟨rfl, ?_⟩
    unfold posOf at hi
    split_ifs at hi with hlt
    show none = posOf s.list (if s.index = 0 then s.list.length else s.index - 1)
    rw [if_pos (Option.some.inj hi).symm, posOf_of_le le_rfl]

/-- A set of entries that lie in front of all others. -/
def IsCut (key : E → κ) (cut : E → Bool) : Prop := ∀ a b, key a ≤ key b → cut b = true → cut a = true

/-- The number of entries before the first that is not in the cut. -/
def cutIdx (cut : E → Bool) (l : List E) : ℕ := l.findIdx fun e => !cut e

theorem isCut_keyBelow (k : κ) : IsCut key (keyBelow key k) := fun _ _ hab hb =>
  decide_eq_true (hab.trans_lt (of_decide_eq_true hb))

section

variable {cut : E → Bool} {l : List E} {i : ℕ}

theorem cutIdx_le (cut : E → Bool) (l : List E) : cutIdx cut l ≤ l.length := List.findIdx_le_length

theorem cut_of_lt (hi : i < cutIdx cut l) (hl : i < l.length) : cut l[i] = true := by
  simpa using List.not_of_lt_findIdx (show i < l.findIdx fun e => !cut e from hi)

theorem not_cut_at (hl : cutIdx cut l < l.length) : cut l[cutIdx cut l] = false := by
  have hnot := @List.findIdx_getElem _ (fun e => !cut e) l hl
  exact Bool.not_eq_true' _ |>.mp hnot

variable (hl : l.Pairwise fun a b => key a < key b) (hcut : IsCut key cut)
include hl hcut

theorem not_cut_of_le (hi : cutIdx cut l ≤ i) (hlen : i < l.length) : cut l[i] = false := by
  rcases hi.lt_or_eq with hlt | rfl
  · have hle := List.pairwise_iff_getElem.mp hl (cutIdx cut l) i (hlt.trans hlen) hlen hlt
    by_contra htrue
    have := hcut _ _ hle.le (Bool.eq_true_of_not_eq_false htrue)
    rw [not_cut_at (hlt.trans hlen)] at this
    cases this
  · exact not_cut_at hlen

/-- Which entries lie in the cut. -/
theorem cut_iff (hlen : i < l.length) : cut l[i] = true ↔ i < cutIdx cut l := by
  refine ⟨fun htrue => ?_, fun hi => cut_of_lt hi hlen⟩
  by_contra hi
  rw [not_cut_of_le hl hcut (not_lt.mp hi) hlen] at htrue
  cases htrue

omit hcut in
/-- The cut ends where its first entry outside stands. -/
theorem cutIdx_eq (hi : i < l.length) (hout : cut l[i] = false)
    (hin : ∀ e ∈ l, key e < key l[i] → cut e = true) : cutIdx cut l = i := by
  refine le_antisymm (not_lt.mp fun hlt => ?_) (not_lt.mp fun hlt => ?_)
  · rw [cut_of_lt hlt hi] at hout
    cases hout
  · have hlen : cutIdx cut l < l.length := hlt.trans hi
    have := hin _ (List.getElem_mem hlen) (List.pairwise_iff_getElem.mp hl _ _ hlen hi hlt)
    rw [not_cut_at hlen] at this
    cases this

end

theorem key_le_of_le {l : List E} (hl : l.Pairwise fun a b => key a < key b) {i j : ℕ} (hij : i ≤ j)
    (hj : j < l.length) : key (l[i]) ≤ key l[j] := by
  rcases hij.lt_or_eq with hlt | rfl
  · exact (List.pairwise_iff_getElem.mp hl i j (by omega) hj hlt).le
  · exact le_rfl

theorem cutIdx_none (l : List E) : cutIdx (fun _ => false) l = 0 := by
  cases l with
  | nil => rfl
  | cons a l => simp [cutIdx, List.findIdx_cons]

theorem cutIdx_all (l : List E) : cutIdx (fun _ => true) l = l.length :=
  List.findIdx_eq_length.mpr fun _ _ => rfl

/-- An entry is the first one not before its key. -/
theorem cutIdx_keyBelow {l : List E} (hl : l.Pairwise fun a b => key a < key b) {i : ℕ} (hi : i < l.length) :
    cutIdx (keyBelow key (key l[i])) l = i :=
  cutIdx_eq hl hi (decide_eq_false (lt_irrefl _)) fun _ _ hlt => decide_eq_true hlt

theorem cutIdx_congr {l : List E} {cut cut' : E → Bool} (h : ∀ e ∈ l, cut e = cut' e) :
    cutIdx cut l = cutIdx cut' l := by
  unfold cutIdx
  induction l with
  | nil => rfl
  | cons a l ih =>
    rw [List.findIdx_cons, List.findIdx_cons, h a List.mem_cons_self,
      ih fun e he => h e (List.mem_cons_of_mem _ he)]

/-- `find_largest` finds a child with the largest of the children's entries. -/
theorem MergePos.findLargest_spec (key : E → κ) {C : Cursor σ E κ} (children : List σ) :
    match MergePos.findLargest key C children with
    | none => ∀ c ∈ children, C.current c = none
    | some i => ∃ c e, children[i]? = some c ∧ C.current c = some e ∧
        ∀ c' ∈ children, ∀ e', C.current c' = some e' → key e' ≤ key e := by
  -- the loop of `find_smallest`, from the last child to the first and in the opposite order
  have h := MergePos.foldl_pick_spec (fun e => OrderDual.toDual (key e))
    (children.map C.current).zipIdx.reverse none
  have hpick : (MergePos.pick key fun a b => decide (b < a)) =
      MergePos.pick (fun e : E => OrderDual.toDual (key e)) fun a b => decide (a < b) := rfl
  rw [← hpick] at h
  unfold MergePos.findLargest
  split at h
  · next hn =>
    rw [hn]
    intro c hc
    obtain ⟨i, hi, rfl⟩ := List.getElem_of_mem hc
    exact h.2 (C.current children[i], i) (by
      rw [List.mem_reverse, List.mk_mem_zipIdx_iff_getElem?]
      simp [hi])
  · next m i hm =>
    rw [hm]
    obtain ⟨h1 | h1, -, h3⟩ := h
    · cases h1
    · rw [List.mem_reverse, List.mk_mem_zipIdx_iff_getElem?, List.getElem?_map] at h1
      obtain ⟨c, hc, he⟩ := Option.map_eq_some_iff.mp h1
      refine ⟨c, m, hc, he, fun c' hc' e' he' => ?_⟩
      obtain ⟨j, hj, rfl⟩ := List.getElem_of_mem hc'
      refine h3 (C.current children[j], j) ?_ e' he'
      rw [List.mem_reverse, List.mk_mem_zipIdx_iff_getElem?]
      simp [hj]

/-! ## Lists and their union -/

/-- Sorted lists, and the sorted list of all their entries. -/
structure Merges (key : E → κ) (lists : List (List E)) (union : List E) : Prop where
  sorted : union.Pairwise fun a b => key a < key b
  perm : union.Perm lists.flatten
  lists_sorted : ∀ l ∈ lists, l.Pairwise fun a b => key a < key b

/-- The children stand at positions of their lists. -/
structure ChildrenAt (lists : List (List E)) (R : ℕ → σ → Option ℕ → Prop) (pos : ℕ → List E → Option ℕ)
    (children : List σ) : Prop where
  length : children.length = lists.length
  stands : ∀ (m : ℕ) (l : List E) (c : σ), lists[m]? = some l → children[m]? = some c → R m c (pos m l)

/-- Where a child stands that is not behind the entry the merging cursor stands on. -/
def standing (key : E → κ) (direction : Direction) (j : ℕ) (k : κ) (m : ℕ) (l : List E) : Option ℕ :=
  if m = j ∨ direction = .forward then posOf l (cutIdx (keyBelow key k) l)
  else posBefore (cutIdx (keyBelow key k) l)

/-- Positions of the merging cursor in the union. -/
def MergeAt (key : E → κ) (lists : List (List E)) (union : List E) (R : ℕ → σ → Option ℕ → Prop)
    (t : MergePos σ) : Option ℕ → Prop
  | none => t.current = none ∧ ∃ pos, ChildrenAt lists R pos t.children
  | some n => ∃ e j l, union[n]? = some e ∧ t.current = some j ∧ lists[j]? = some l ∧ e ∈ l ∧
      ChildrenAt lists R (standing key t.direction j (key e)) t.children

namespace Merges

variable {lists : List (List E)} {union : List E} {R : ℕ → σ → Option ℕ → Prop} {bad : σ → Prop}
  {C : Cursor σ E κ} {cut : E → Bool} {children : List σ} {m : ℕ} {l : List E}

theorem mem_union (h : Merges key lists union) (hl : lists[m]? = some l) {e : E} (he : e ∈ l) : e ∈ union :=
  h.perm.mem_iff.mpr (List.mem_flatten.mpr ⟨l, List.mem_of_getElem? hl, he⟩)

theorem exists_list (h : Merges key lists union) {e : E} (he : e ∈ union) :
    ∃ (m : ℕ) (l : List E), lists[m]? = some l ∧ e ∈ l := by
  obtain ⟨l, hl, hel⟩ := List.mem_flatten.mp (h.perm.mem_iff.mp he)
  obtain ⟨m, hm⟩ := List.mem_iff_getElem?.mp hl
  exact ⟨m, l, hm, hel⟩

/-- No key is in two lists. -/
theorem key_ne (h : Merges key lists union) {m' : ℕ} {l' : List E} (hne : m ≠ m')
    (hl : lists[m]? = some l) (hl' : lists[m']? = some l') {e e' : E} (he : e ∈ l) (he' : e' ∈ l') :
    key e ≠ key e' := by
  have hnodup : (lists.flatten.map key).Nodup := by
    refine (h.perm.map key).nodup_iff.mp ?_
    rw [List.Nodup, List.pairwise_map]
    exact h.sorted.imp fun hlt => hlt.ne
  rw [List.Nodup, List.pairwise_map, List.pairwise_flatten] at hnodup
  obtain ⟨hm, rfl⟩ := List.getElem?_eq_some_iff.mp hl
  obtain ⟨hm', rfl⟩ := List.getElem?_eq_some_iff.mp hl'
  rcases Nat.lt_or_gt_of_ne hne with hlt | hlt
  · exact List.pairwise_iff_getElem.mp hnodup.2 m m' hm hm' hlt e he e' he'
  · exact (List.pairwise_iff_getElem.mp hnodup.2 m' m hm' hm hlt e' he' e he).symm

variable (hC : ∀ (m : ℕ) (l : List E), lists[m]? = some l → FollowsUnless C (keyBelow key) l (R m) bad)

include hC in
/-- The entry of a child is the one at its position. -/
theorem current_child {pos : ℕ → List E → Option ℕ} (hat : ChildrenAt lists R pos children)
    (hl : lists[m]? = some l) :
    ∃ c, children[m]? = some c ∧ C.current c = (pos m l).bind fun i => l[i]? := by
  have hm : m < children.length := by
    rw [hat.length]
    exact (List.getElem?_eq_some_iff.mp hl).1
  have hc := List.getElem?_eq_getElem hm
  exact ⟨_, hc, (hC m l hl).current (hat.stands m l _ hl hc)⟩

variable (h : Merges key lists union)
include h hC

/-- **The smallest of the first entries behind a cut** is the first of the union. -/
theorem smallest (hcut : IsCut key cut)
    (hat : ChildrenAt lists R (fun _ l => posOf l (cutIdx cut l)) children) :
    MergeAt key lists union R ⟨children, MergePos.findSmallest key C children, .forward⟩
      (posOf union (cutIdx cut union)) := by
  have hspec := MergePos.findSmallest_spec key (C := C) children
  split at hspec
  · next hnone =>
    -- no child is valid: every entry lies in the cut
    have hall : cutIdx cut union = union.length := by
      refine List.findIdx_eq_length.mpr fun e he => ?_
      obtain ⟨m, l, hl, hel⟩ := h.exists_list he
      obtain ⟨c, hc, hcur⟩ := current_child hC hat hl
      obtain ⟨i, hi, rfl⟩ := List.getElem_of_mem hel
      rw [hspec c (List.mem_of_getElem? hc)] at hcur
      have hle : l.length ≤ cutIdx cut l := by
        by_contra hlt
        rw [posOf_of_lt (not_le.mp hlt), Option.bind_some, List.getElem?_eq_getElem (not_le.mp hlt)] at hcur
        cases hcur
      rw [show cut l[i] = true from cut_of_lt (by omega) hi]
      rfl
    rw [hall, posOf_of_le le_rfl, hnone]
    exact ⟨rfl, _, hat⟩
  · next j hj =>
    obtain ⟨c, e, hc, hcur, hmin⟩ := hspec
    have hjlt : j < lists.length := by
      rw [← hat.length]
      exact (List.getElem?_eq_some_iff.mp hc).1
    have hl := List.getElem?_eq_getElem hjlt
    -- the smallest entry is the first of its own list behind the cut
    obtain ⟨c', hc', hcur'⟩ := current_child hC hat hl
    obtain rfl : c' = c := Option.some.inj (hc'.symm.trans hc)
    have hi : cutIdx cut lists[j] < lists[j].length := by
      by_contra hge
      rw [hcur, posOf_of_le (not_lt.mp hge)] at hcur'
      cases hcur'
    have he : lists[j][cutIdx cut lists[j]] = e := by
      rw [hcur, posOf_of_lt hi, Option.bind_some, List.getElem?_eq_getElem hi] at hcur'
      exact (Option.some.inj hcur').symm
    have hel : e ∈ lists[j] := he ▸ List.getElem_mem hi
    have hout : cut e = false := he ▸ not_cut_at hi
    -- and every entry before it is in the cut
    have hin : ∀ x ∈ union, key x < key e → cut x = true := by
      intro x hx hlt
      obtain ⟨m, l, hl', hxl⟩ := h.exists_list hx
      obtain ⟨i, hi', rfl⟩ := List.getElem_of_mem hxl
      by_contra hnot
      have hge : cutIdx cut l ≤ i := not_lt.mp fun hlt => hnot (cut_of_lt hlt hi')
      have hlen : cutIdx cut l < l.length := by omega
      obtain ⟨c'', hc'', hcur''⟩ := current_child hC hat hl'
      rw [posOf_of_lt hlen, Option.bind_some, List.getElem?_eq_getElem hlen] at hcur''
      have hle := hmin c'' (List.mem_of_getElem? hc'') _ hcur''
      have hle' := key_le_of_le (h.lists_sorted l (List.mem_of_getElem? hl')) hge hi'
      exact absurd hlt (not_lt.mpr (hle.trans hle'))
    obtain ⟨n, hn, hne⟩ := List.getElem_of_mem (h.mem_union hl hel)
    have hidx : cutIdx cut union = n := cutIdx_eq h.sorted hn (by rw [hne]; exact hout)
      (by rw [hne]; exact hin)
    rw [hidx, posOf_of_lt hn, hj]
    refine ⟨e, j, _, by rw [List.getElem?_eq_getElem hn, hne], rfl, hl, hel, hat.length, ?_⟩
    intro m l c hl' hc'
    have hsame : cutIdx (keyBelow key (key e)) l = cutIdx cut l := by
      refine cutIdx_congr fun x hx => ?_
      by_cases hlt : key x < key e
      · rw [keyBelow, decide_eq_true hlt, hin x (h.mem_union hl' hx) hlt]
      · rw [keyBelow, decide_eq_false hlt, eq_comm, Bool.eq_false_iff]
        intro htrue
        rw [hcut e x (not_lt.mp hlt) htrue] at hout
        cases hout
    rw [standing, if_pos (Or.inr rfl), hsame]
    exact hat.stands m l c hl' hc'

/-- **The largest of the last entries before a cut** is the last of the union. -/
theorem largest (hcut : IsCut key cut)
    (hat : ChildrenAt lists R (fun _ l => posBefore (cutIdx cut l)) children) :
    MergeAt key lists union R ⟨children, MergePos.findLargest key C children, .reverse⟩
      (posBefore (cutIdx cut union)) := by
  have hspec := MergePos.findLargest_spec key (C := C) children
  -- the entry of a child, where its list reaches into the cut
  have hentry : ∀ {m : ℕ} {l : List E}, lists[m]? = some l → 0 < cutIdx cut l →
      ∃ c ∈ children, ∃ hi : cutIdx cut l - 1 < l.length, C.current c = some l[cutIdx cut l - 1] := by
    intro m l hl hpos
    obtain ⟨c, hc, hcur⟩ := current_child hC hat hl
    have hi : cutIdx cut l - 1 < l.length := by
      have := cutIdx_le cut l
      omega
    rw [posBefore, if_neg (by omega), Option.bind_some, List.getElem?_eq_getElem hi] at hcur
    exact ⟨c, List.mem_of_getElem? hc, hi, hcur⟩
  split at hspec
  · next hnone =>
    -- no child is valid: no entry lies in the cut
    have hall : cutIdx cut union = 0 := by
      by_contra hpos
      have hlen := cutIdx_le cut union
      have hin := cut_of_lt (Nat.pos_of_ne_zero hpos) (by omega)
      obtain ⟨m, l, hl, hel⟩ := h.exists_list (List.getElem_mem (by omega : 0 < union.length))
      obtain ⟨i, hi, hx⟩ := List.getElem_of_mem hel
      rw [← hx, cut_iff (h.lists_sorted l (List.mem_of_getElem? hl)) hcut hi] at hin
      obtain ⟨c, hc, _, hcur⟩ := hentry hl (by omega)
      rw [hspec c hc] at hcur
      cases hcur
    rw [hall, hnone]
    exact ⟨rfl, _, hat⟩
  · next j hj =>
    obtain ⟨c, e, hc, hcur, hmax⟩ := hspec
    have hjlt : j < lists.length := by
      rw [← hat.length]
      exact (List.getElem?_eq_some_iff.mp hc).1
    have hl := List.getElem?_eq_getElem hjlt
    have hlsorted := h.lists_sorted _ (List.getElem_mem hjlt)
    -- the largest entry is the last of its own list before the cut
    obtain ⟨c', hc', hcur'⟩ := current_child hC hat hl
    obtain rfl : c' = c := Option.some.inj (hc'.symm.trans hc)
    have hpos : cutIdx cut lists[j] ≠ 0 := by
      intro hzero
      rw [hcur, hzero] at hcur'
      cases hcur'
    have hi : cutIdx cut lists[j] - 1 < lists[j].length := by
      have := cutIdx_le cut lists[j]
      omega
    have he : lists[j][cutIdx cut lists[j] - 1] = e := by
      rw [hcur, posBefore, if_neg hpos, Option.bind_some, List.getElem?_eq_getElem hi] at hcur'
      exact (Option.some.inj hcur').symm
    have hel : e ∈ lists[j] := he ▸ List.getElem_mem hi
    have hin : cut e = true := he ▸ cut_of_lt (by omega) hi
    -- and every entry in the cut comes at or before it
    have hle : ∀ x ∈ union, cut x = true → key x ≤ key e := by
      intro x hx hcutx
      obtain ⟨m, l, hl', hxl⟩ := h.exists_list hx
      obtain ⟨i, hi', rfl⟩ := List.getElem_of_mem hxl
      have hsorted := h.lists_sorted l (List.mem_of_getElem? hl')
      rw [cut_iff hsorted hcut hi'] at hcutx
      obtain ⟨c'', hc'', hi'', hcur''⟩ := hentry hl' (by omega)
      exact (key_le_of_le hsorted (by omega : i ≤ cutIdx cut l - 1) hi'').trans (hmax c'' hc'' _ hcur'')
    obtain ⟨n, hn, hne⟩ := List.getElem_of_mem (h.mem_union hl hel)
    have hidx : cutIdx cut union = n + 1 := by
      have hlt : n < cutIdx cut union := (cut_iff h.sorted hcut hn).mp (by rw [hne]; exact hin)
      refine le_antisymm (not_lt.mp fun hgt => ?_) hlt
      have hlen : n + 1 < union.length := hgt.trans_le (cutIdx_le cut union)
      have hkey := hle _ (List.getElem_mem hlen) (cut_of_lt hgt hlen)
      have hsucc := List.pairwise_iff_getElem.mp h.sorted n (n + 1) hn hlen (Nat.lt_succ_self n)
      rw [hne] at hsucc
      exact absurd hsucc (not_lt.mpr hkey)
    rw [hidx, hj]
    refine ⟨e, j, _, by rw [Nat.add_sub_cancel, List.getElem?_eq_getElem hn, hne], rfl, hl, hel, hat.length, ?_⟩
    intro m l c hl' hc'
    have hR := hat.stands m l c hl' hc'
    by_cases hm : m = j
    · subst hm
      obtain rfl : lists[m] = l := Option.some.inj (hl.symm.trans hl')
      have hbelow : cutIdx (keyBelow key (key e)) lists[m] = cutIdx cut lists[m] - 1 := by
        rw [← he]
        exact cutIdx_keyBelow hlsorted hi
      rw [standing, if_pos (Or.inl rfl), hbelow, posOf_of_lt hi]
      rwa [posBefore, if_neg hpos] at hR
    · have hsame : cutIdx (keyBelow key (key e)) l = cutIdx cut l := by
        refine cutIdx_congr fun x hx => ?_
        by_cases hlt : key x < key e
        · rw [keyBelow, decide_eq_true hlt, hcut x e hlt.le hin]
        · rw [keyBelow, decide_eq_false hlt, eq_comm, Bool.eq_false_iff]
          intro htrue
          have heq := le_antisymm (hle x (h.mem_union hl' hx) htrue) (not_lt.mp hlt)
          exact h.key_ne hm hl' hl hx hel heq
      rw [standing, if_neg (by simp [hm]), hsame]
      exact hR

end Merges

/-! ## Moves of the children -/

/-- Each child makes moves of its own. -/
def Moved (g : ℕ → σ → σ) (children children' : List σ) : Prop :=
  ∀ m, children'[m]? = children[m]?.map (g m)

theorem moved_map (f : σ → σ) (children : List σ) : Moved (fun _ => f) children (children.map f) :=
  fun _ => List.getElem?_map

/-- The current child moves, after the others may have moved. -/
theorem moved_mapCurrent (f : σ → σ) {s : MergePos σ} {j : ℕ} (hj : s.current = some j) {g : σ → σ}
    {children : List σ} (hothers : Moved (fun m c => if m = j then c else g c) s.children children) :
    Moved (fun m c => if m = j then f c else g c) s.children (s.mapCurrent f children) := by
  intro m
  have hm := hothers m
  rw [MergePos.mapCurrent, hj]
  simp only
  by_cases h : m = j
  · subst h
    rw [List.getElem?_modify_eq, hm, Option.map_eq_map, Option.map_map]
    congr 1
    funext c
    simp
  · rw [List.getElem?_modify_ne _ _ (Ne.symm h), hm]
    congr 1
    funext c
    simp [h]

theorem moved_mapOthers (g : σ → σ) {s : MergePos σ} {j : ℕ} (hj : s.current = some j) :
    Moved (fun m c => if m = j then c else g c) s.children (s.mapOthers g) := by
  intro m
  rw [MergePos.mapOthers, List.getElem?_map, List.getElem?_zipIdx, hj, Option.map_map]
  congr 1
  funext c
  simp [eq_comm]

theorem moved_others_id (j : ℕ) (children : List σ) :
    Moved (fun m c => if m = j then c else id c) children children := by
  intro m
  simp

namespace Moved

variable {g : ℕ → σ → σ} {children children' : List σ} {bad : σ → Prop} {lists : List (List E)}
  {R : ℕ → σ → Option ℕ → Prop}

theorem length (h : Moved g children children') : children'.length = children.length := by
  refine le_antisymm ?_ ?_
  · rw [← List.getElem?_eq_none_iff, h]
    simp
  · rw [← List.getElem?_eq_none_iff]
    have := h children'.length
    rw [List.getElem?_eq_none le_rfl, eq_comm, Option.map_eq_none_iff] at this
    exact this

/-- A child that has failed has still failed. -/
theorem keeps (h : Moved g children children') (hg : ∀ m c, bad c → bad (g m c))
    (hbad : ∃ c ∈ children, bad c) : ∃ c ∈ children', bad c := by
  obtain ⟨c, hc, hbad⟩ := hbad
  obtain ⟨m, hm⟩ := List.mem_iff_getElem?.mp hc
  have := h m
  rw [hm] at this
  exact ⟨g m c, List.mem_of_getElem? this, hg m c hbad⟩

/-- Children that move stand where they move to, or one has failed. -/
theorem childrenAt (h : Moved g children children') (pos' : ℕ → List E → Option ℕ)
    {pos : ℕ → List E → Option ℕ} (hat : ChildrenAt lists R pos children)
    (hg : ∀ (m : ℕ) (l : List E) (c : σ), lists[m]? = some l → R m c (pos m l) →
      R m (g m c) (pos' m l) ∨ bad (g m c)) :
    ChildrenAt lists R pos' children' ∨ ∃ c ∈ children', bad c := by
  by_cases hbad : ∃ c ∈ children', bad c
  · exact Or.inr hbad
  · refine Or.inl ⟨h.length.trans hat.length, fun m l c' hl hc' => ?_⟩
    rw [h m] at hc'
    obtain ⟨c, hc, rfl⟩ := Option.map_eq_some_iff.mp hc'
    refine (hg m l c hl (hat.stands m l c hl hc)).resolve_right fun hb => hbad ⟨g m c, ?_, hb⟩
    refine List.mem_of_getElem? (i := m) ?_
    rw [h m, hc]
    rfl

end Moved

/-! ## The merging cursor -/

/-- A step back from the first entry not before the key. -/
def Cursor.stepBefore (C : Cursor σ E κ) (k : κ) (c : σ) : σ :=
  if (C.current (C.seek k c)).isSome then C.prev (C.seek k c) else C.seekToLast (C.seek k c)

namespace Merges

variable {lists : List (List E)} {union : List E} {R : ℕ → σ → Option ℕ → Prop} {bad : σ → Prop}
  {C : Cursor σ E κ} {t : MergePos σ} {n : ℕ}
  (h : Merges key lists union)
  (hC : ∀ (m : ℕ) (l : List E), lists[m]? = some l → FollowsUnless C (keyBelow key) l (R m) bad)

include h hC in
/-- The entry the merging cursor stands on. -/
theorem entry_eq (ht : MergeAt key lists union R t (some n)) :
    MergePos.entry C t = union[n]? := by
  obtain ⟨e, j, l, hn, hj, hl, hel, hat⟩ := ht
  obtain ⟨c, hc, hcur⟩ := current_child hC hat hl
  obtain ⟨i, hi, rfl⟩ := List.getElem_of_mem hel
  have hidx := cutIdx_keyBelow (h.lists_sorted l (List.mem_of_getElem? hl)) hi
  rw [standing, if_pos (Or.inl rfl), hidx, posOf_of_lt hi, Option.bind_some,
    List.getElem?_eq_getElem hi] at hcur
  rw [MergePos.entry, hj, Option.bind_some, hc, Option.bind_some, hcur, hn]

/-- The entries up to a key. -/
theorem isCut_le (k : κ) : IsCut key fun e => decide (key e ≤ k) := fun _ _ hab hb =>
  decide_eq_true (hab.trans (of_decide_eq_true hb))

include h in
/-- One entry more lies up to the key of an entry than before it, and none more in the
    other lists. -/
theorem cutIdx_le_key {m j : ℕ} {l : List E} {e : E} (hl : lists[m]? = some l)
    {lj : List E} (hj : lists[j]? = some lj) (he : e ∈ lj) :
    cutIdx (fun x => decide (key x ≤ key e)) l =
      if m = j then cutIdx (keyBelow key (key e)) l + 1 else cutIdx (keyBelow key (key e)) l := by
  split_ifs with hm
  · subst hm
    obtain rfl : l = lj := Option.some.inj (hl.symm.trans hj)
    have hsorted := h.lists_sorted l (List.mem_of_getElem? hl)
    obtain ⟨i, hi, rfl⟩ := List.getElem_of_mem he
    rw [cutIdx_keyBelow hsorted hi]
    refine le_antisymm (not_lt.mp fun hgt => ?_) ?_
    · have hlen : i + 1 < l.length := hgt.trans_le (cutIdx_le _ l)
      have hle := of_decide_eq_true (cut_of_lt hgt hlen)
      exact absurd (List.pairwise_iff_getElem.mp hsorted i (i + 1) hi hlen (Nat.lt_succ_self i))
        (not_lt.mpr hle)
    · exact (cut_iff hsorted (isCut_le _) hi).mp (decide_eq_true le_rfl)
  · refine cutIdx_congr fun x hx => ?_
    have hne := h.key_ne hm hl hj hx he
    rw [keyBelow, decide_eq_decide]
    exact ⟨fun hle => lt_of_le_of_ne hle hne, le_of_lt⟩

include h in
theorem cutIdx_union (hn : n < union.length) :
    cutIdx (keyBelow key (key union[n])) union = n ∧
      cutIdx (fun x => decide (key x ≤ key union[n])) union = n + 1 := by
  have hsingle : Merges key [union] union := ⟨h.sorted, by simp, by simpa using h.sorted⟩
  have hidx := cutIdx_keyBelow h.sorted hn
  refine ⟨hidx, ?_⟩
  rw [hsingle.cutIdx_le_key (m := 0) (j := 0) rfl rfl (List.getElem_mem hn), if_pos rfl, hidx]

include hC in
theorem stepBefore_at {m : ℕ} {l : List E} (hl : lists[m]? = some l) (k : κ) {c : σ} {q : Option ℕ}
    (hc : R m c q) : R m (C.stepBefore k c) (posBefore (cutIdx (keyBelow key k) l)) ∨
      bad (C.stepBefore k c) := by
  have hf := hC m l hl
  unfold Cursor.stepBefore
  rcases hf.step (.seek k) hc trivial with hseek | hbad
  · have hseek : R m (C.seek k c) (posOf l (cutIdx (keyBelow key k) l)) := hseek
    by_cases hlt : cutIdx (keyBelow key k) l < l.length
    · rw [posOf_of_lt hlt] at hseek
      rw [if_pos (by rw [hf.isSome_current hseek]; rfl)]
      exact hf.step .prev hseek rfl
    · rw [posOf_of_le (not_lt.mp hlt)] at hseek
      rw [if_neg (by rw [hf.isSome_current hseek]; simp)]
      have hlen : cutIdx (keyBelow key k) l = l.length := le_antisymm (cutIdx_le _ l) (not_lt.mp hlt)
      rw [hlen, ← lastPos_eq]
      exact hf.step .seekToLast hseek trivial
  · refine Or.inr ?_
    split_ifs
    · exact hf.sticky .prev hbad
    · exact hf.sticky .seekToLast hbad

end Merges

/-- A child has failed. -/
def ChildFailed (bad : σ → Prop) (t : MergePos σ) : Prop := ∃ c ∈ t.children, bad c

/-! ### One step forward or back -/

section

variable {C : Cursor σ E κ} {t : MergePos σ} {j : ℕ} {e : E}

/-- How the children move for `next`. -/
theorem next_moved (hj : t.current = some j) (he : MergePos.entry C t = some e) :
    ∃ children, (mergeCursor key C).next t = ⟨children, MergePos.findSmallest key C children, .forward⟩ ∧
      Moved (fun m c => if m = j then C.next c else
        if t.direction = .forward then c else C.seek (key e) c) t.children children := by
  cases hd : t.direction with
  | forward =>
    refine ⟨t.mapCurrent C.next t.children, ?_, moved_mapCurrent C.next hj (moved_others_id j t.children)⟩
    simp only [mergeCursor, hd]
  | reverse =>
    refine ⟨t.mapCurrent C.next (t.mapOthers (C.seek (key e))), ?_,
      moved_mapCurrent C.next hj (moved_mapOthers (C.seek (key e)) hj)⟩
    simp only [mergeCursor, hd, he]

/-- How the children move for `prev`. -/
theorem prev_moved (hj : t.current = some j) (he : MergePos.entry C t = some e) :
    ∃ children, (mergeCursor key C).prev t = ⟨children, MergePos.findLargest key C children, .reverse⟩ ∧
      Moved (fun m c => if m = j then C.prev c else
        if t.direction = .reverse then c else C.stepBefore (key e) c) t.children children := by
  cases hd : t.direction with
  | forward =>
    refine ⟨t.mapCurrent C.prev (t.mapOthers (C.stepBefore (key e))), ?_,
      moved_mapCurrent C.prev hj (moved_mapOthers (C.stepBefore (key e)) hj)⟩
    simp only [mergeCursor, hd, he]
    rfl
  | reverse =>
    refine ⟨t.mapCurrent C.prev t.children, ?_, moved_mapCurrent C.prev hj (moved_others_id j t.children)⟩
    simp only [mergeCursor, hd]

/-- Where the cursor is not valid, at most the current child moves. -/
theorem moved_of_invalid (f : σ → σ) :
    Moved (fun m c => if t.current = some m then f c else c) t.children (t.mapCurrent f t.children) := by
  cases hj : t.current with
  | none =>
    intro m
    rw [MergePos.mapCurrent, hj]
    simp
  | some j =>
    intro m
    rw [moved_mapCurrent f hj (moved_others_id j t.children) m]
    congr 1
    funext c
    simp [eq_comm]

variable {bad : σ → Prop} (hsticky : ∀ c (m : Move κ), bad c → bad (C.move m c))
include hsticky

omit [LinearOrder κ] in
theorem stepBefore_sticky (k : κ) {c : σ} (hc : bad c) : bad (C.stepBefore k c) := by
  unfold Cursor.stepBefore
  have hseek := hsticky c (.seek k) hc
  split_ifs
  · exact hsticky _ .prev hseek
  · exact hsticky _ .seekToLast hseek

/-- What has failed stays so. -/
theorem childFailed_move (m : Move κ) (ht : ChildFailed bad t) :
    ChildFailed bad ((mergeCursor key C).move m t) := by
  cases m with
  | seekToFirst => exact (moved_map C.seekToFirst t.children).keeps (fun _ c => hsticky c .seekToFirst) ht
  | seekToLast => exact (moved_map C.seekToLast t.children).keeps (fun _ c => hsticky c .seekToLast) ht
  | seek k => exact (moved_map (C.seek k) t.children).keeps (fun _ c => hsticky c (.seek k)) ht
  | next =>
    cases he : MergePos.entry C t with
    | none =>
      have hnext : ((mergeCursor key C).next t).children = t.mapCurrent C.next t.children := by
        cases hd : t.direction <;> simp only [mergeCursor, he, hd]
      show ∃ c ∈ ((mergeCursor key C).next t).children, bad c
      rw [hnext]
      refine (moved_of_invalid C.next).keeps (fun m c hc => ?_) ht
      split_ifs
      · exact hsticky c .next hc
      · exact hc
    | some e =>
      obtain ⟨j, hj, -⟩ := Option.bind_eq_some_iff.mp he
      obtain ⟨children, heq, hmoved⟩ := next_moved hj he
      show ChildFailed bad ((mergeCursor key C).next t)
      rw [heq]
      refine hmoved.keeps (fun m c hc => ?_) ht
      split_ifs
      · exact hsticky c .next hc
      · exact hc
      · exact hsticky c (.seek (key e)) hc
  | prev =>
    cases he : MergePos.entry C t with
    | none =>
      have hprev : ((mergeCursor key C).prev t).children = t.mapCurrent C.prev t.children := by
        cases hd : t.direction <;> simp only [mergeCursor, he, hd]
      show ∃ c ∈ ((mergeCursor key C).prev t).children, bad c
      rw [hprev]
      refine (moved_of_invalid C.prev).keeps (fun m c hc => ?_) ht
      split_ifs
      · exact hsticky c .prev hc
      · exact hc
    | some e =>
      obtain ⟨j, hj, -⟩ := Option.bind_eq_some_iff.mp he
      obtain ⟨children, heq, hmoved⟩ := prev_moved hj he
      show ChildFailed bad ((mergeCursor key C).prev t)
      rw [heq]
      refine hmoved.keeps (fun m c hc => ?_) ht
      split_ifs
      · exact hsticky c .prev hc
      · exact hc
      · exact stepBefore_sticky hsticky (key e) hc

end

namespace Merges

variable {lists : List (List E)} {union : List E} {R : ℕ → σ → Option ℕ → Prop} {bad : σ → Prop}
  {C : Cursor σ E κ} {t : MergePos σ} {n : ℕ} (h : Merges key lists union)
  (hC : ∀ (m : ℕ) (l : List E), lists[m]? = some l → FollowsUnless C (keyBelow key) l (R m) bad)
include h hC

theorem move_next (ht : MergeAt key lists union R t (some n)) :
    MergeAt key lists union R ((mergeCursor key C).next t) (posOf union (n + 1)) ∨
      ChildFailed bad ((mergeCursor key C).next t) := by
  have hentry := h.entry_eq hC ht
  obtain ⟨e, j, lj, hn, hj, hlj, hel, hat⟩ := ht
  rw [hn] at hentry
  obtain ⟨hlt, rfl⟩ := List.getElem?_eq_some_iff.mp hn
  obtain ⟨children, heq, hmoved⟩ := next_moved hj hentry
  rw [heq]
  refine (hmoved.childrenAt (fun _ l => posOf l (cutIdx (fun x => decide (key x ≤ key union[n])) l)) hat
    fun m l c hl hc => ?_).imp_left fun hat' => ?_
  · have hf := hC m l hl
    rw [h.cutIdx_le_key hl hlj hel]
    by_cases hm : m = j
    · subst hm
      obtain rfl : l = lj := Option.some.inj (hl.symm.trans hlj)
      have hpos : cutIdx (keyBelow key (key union[n])) l < l.length := by
        obtain ⟨i, hi, hx⟩ := List.getElem_of_mem hel
        rw [← hx, cutIdx_keyBelow (h.lists_sorted l (List.mem_of_getElem? hl)) hi]
        exact hi
      rw [standing, if_pos (Or.inl rfl), posOf_of_lt hpos] at hc
      rw [if_pos rfl, if_pos rfl]
      exact hf.step .next hc rfl
    · rw [if_neg hm, if_neg hm]
      split_ifs with hd
      · rw [standing, if_pos (Or.inr hd)] at hc
        exact Or.inl hc
      · exact hf.step (.seek (key union[n])) hc trivial
  · have hsmall := h.smallest hC (isCut_le (key union[n])) hat'
    rwa [(h.cutIdx_union hlt).2] at hsmall

theorem move_prev (ht : MergeAt key lists union R t (some n)) :
    MergeAt key lists union R ((mergeCursor key C).prev t) (posBefore n) ∨
      ChildFailed bad ((mergeCursor key C).prev t) := by
  have hentry := h.entry_eq hC ht
  obtain ⟨e, j, lj, hn, hj, hlj, hel, hat⟩ := ht
  rw [hn] at hentry
  obtain ⟨hlt, rfl⟩ := List.getElem?_eq_some_iff.mp hn
  obtain ⟨children, heq, hmoved⟩ := prev_moved hj hentry
  rw [heq]
  refine (hmoved.childrenAt (fun _ l => posBefore (cutIdx (keyBelow key (key union[n])) l)) hat
    fun m l c hl hc => ?_).imp_left fun hat' => ?_
  · have hf := hC m l hl
    by_cases hm : m = j
    · subst hm
      obtain rfl : l = lj := Option.some.inj (hl.symm.trans hlj)
      have hpos : cutIdx (keyBelow key (key union[n])) l < l.length := by
        obtain ⟨i, hi, hx⟩ := List.getElem_of_mem hel
        rw [← hx, cutIdx_keyBelow (h.lists_sorted l (List.mem_of_getElem? hl)) hi]
        exact hi
      rw [standing, if_pos (Or.inl rfl), posOf_of_lt hpos] at hc
      rw [if_pos rfl]
      exact hf.step .prev hc rfl
    · rw [if_neg hm]
      split_ifs with hd
      · rw [standing, if_neg (by simp [hm, hd])] at hc
        exact Or.inl hc
      · exact stepBefore_at hC hl (key union[n]) hc
  · have hlarge := h.largest hC (isCut_keyBelow (key union[n])) hat'
    rwa [(h.cutIdx_union hlt).1] at hlarge

omit h in
/-- A move of all children at once. -/
theorem move_all {pos : ℕ → List E → Option ℕ} (hat : ChildrenAt lists R pos t.children) (m : Move κ)
    (pos' : ℕ → List E → Option ℕ) (hm : ∀ q, m.Allowed q)
    (hpos : ∀ (i : ℕ) (l : List E) (q : Option ℕ), (posCursor (keyBelow key) l).move m q = pos' i l) :
    ChildrenAt lists R pos' (t.children.map (C.move m)) ∨
      ∃ c ∈ t.children.map (C.move m), bad c :=
  (moved_map (C.move m) t.children).childrenAt pos' hat fun i l c hl hc => by
    rw [← hpos i l (pos i l)]
    exact (hC i l hl).step m hc (hm _)

/-- **The merging cursor follows the union** until a child fails. -/
theorem followsUnless (hsticky : ∀ c (m : Move κ), bad c → bad (C.move m c)) :
    FollowsUnless (mergeCursor key C) (keyBelow key) union (MergeAt key lists union R) (ChildFailed bad) where
  current := by
    intro t p ht
    cases p with
    | none =>
      show MergePos.entry C t = none
      rw [MergePos.entry, ht.1]
      rfl
    | some n => exact h.entry_eq hC ht
  bound := by
    rintro t n ⟨e, j, l, hn, -⟩
    exact (List.getElem?_eq_some_iff.mp hn).1
  step := by
    intro t p m ht hm
    have hplaced : ∃ pos, ChildrenAt lists R pos t.children := by
      cases p with
      | none => exact ht.2
      | some n =>
        obtain ⟨_, _, _, -, -, -, -, hat⟩ := ht
        exact ⟨_, hat⟩
    obtain ⟨pos, hat⟩ := hplaced
    cases m with
    | seekToFirst =>
      refine (move_all hC hat .seekToFirst (fun _ l => posOf l (cutIdx (fun _ => false) l))
        (fun _ => trivial) fun i l q => by rw [cutIdx_none]; rfl).imp_left fun hat' => ?_
      have hsmall := h.smallest hC (fun _ _ _ (hb : false = true) => hb) hat'
      rwa [cutIdx_none] at hsmall
    | seekToLast =>
      refine (move_all hC hat .seekToLast (fun _ l => posBefore (cutIdx (fun _ => true) l))
        (fun _ => trivial) fun i l q => by rw [cutIdx_all]; exact lastPos_eq l).imp_left fun hat' => ?_
      have hlarge := h.largest hC (fun _ _ _ (hb : true = true) => hb) hat'
      rw [cutIdx_all, ← lastPos_eq] at hlarge
      exact hlarge
    | seek k =>
      refine (move_all hC hat (.seek k) (fun _ l => posOf l (cutIdx (keyBelow key k) l))
        (fun _ => trivial) fun i l q => rfl).imp_left fun hat' => ?_
      exact h.smallest hC (isCut_keyBelow k) hat'
    | next =>
      obtain ⟨n, rfl⟩ := Option.isSome_iff_exists.mp hm
      exact h.move_next hC ht
    | prev =>
      obtain ⟨n, rfl⟩ := Option.isSome_iff_exists.mp hm
      exact h.move_prev hC ht
  sticky := fun m ht => childFailed_move hsticky m ht

end Merges

end Ambar.Lib
