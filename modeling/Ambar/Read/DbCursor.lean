import Ambar.Lib.Merge
import Ambar.Read.DbIter

/-!
# The database iterator in both directions

`DBIter` over an internal iterator that follows a sorted list of entries is a cursor over
the pairs a reader sees (`src/db_iter.cpp`). Moving forward, the internal iterator stands on
the version that is shown; moving backward it stands before it, with nothing between that
the reader sees.

* `visible_append`, `visible_split`: the pairs before and after an entry.
* `DBIter.findNextUserEntry_at`, `DBIter.findPrevLoop_at`: what the two loops find.
* `DBIter.follows`: the database iterator follows the visible pairs.
-/

namespace Ambar

open Lib (Cursor Follows Move posCursor posOf posBefore lastPos keyBelow posOf_of_lt posOf_of_le)

/-! ## What is visible before and after an entry -/

/-- Whether a user key is decided already. -/
def hides (skip : Option Bytes) (u : Bytes) : Bool := skip.any fun k => decide (u ≤ k)

theorem hides_mono {skip : Option Bytes} {u u' : Bytes} (h : hides skip u = true) (hu : u' ≤ u) :
    hides skip u' = true := by
  obtain ⟨k, hk, hle⟩ := (Option.any_eq_true _ _).mp h
  exact (Option.any_eq_true _ _).mpr ⟨k, hk, decide_eq_true (hu.trans (of_decide_eq_true hle))⟩

/-- The user key decided last, after more entries. -/
def skipAfter (s : ℕ) : (skip : Option Bytes) → List Entry → Option Bytes
  | skip, [] => skip
  | skip, e :: es =>
    if e.sequence ≤ s then
      match e.shown with
      | none => skipAfter s (some e.userKey) es
      | some _ => skipAfter s (if hides skip e.userKey then skip else some e.userKey) es
    else skipAfter s skip es

theorem visible_append (s : ℕ) (a b : List Entry) :
    ∀ skip, visible s skip (a ++ b) = visible s skip a ++ visible s (skipAfter s skip a) b := by
  induction a with
  | nil => exact fun _ => rfl
  | cons e a ih =>
    intro skip
    rw [List.cons_append, visible, visible, skipAfter]
    by_cases hseq : e.sequence ≤ s
    · rw [if_pos hseq, if_pos hseq, if_pos hseq]
      cases e.shown with
      | none => exact ih _
      | some v =>
        show (if hides skip e.userKey then _ else _) = _
        simp only [show (skip.any fun u => decide (e.userKey ≤ u)) = hides skip e.userKey from rfl]
        split_ifs
        · exact ih _
        · rw [ih, List.cons_append]
    · rw [if_neg hseq, if_neg hseq, if_neg hseq]
      exact ih _

/-- Decided are the keys up to those of the entries the reader sees. -/
theorem hides_skipAfter {s : ℕ} {u : Bytes} {es : List Entry} :
    ∀ {skip : Option Bytes}, Entry.Sorted es → (∀ e ∈ es, ∀ k ∈ skip, k ≤ e.userKey) →
      (hides (skipAfter s skip es) u = true ↔
        hides skip u = true ∨ ∃ x ∈ es, x.sequence ≤ s ∧ u ≤ x.userKey) := by
  induction es with
  | nil =>
    intro skip _ _
    simp [skipAfter]
  | cons e es ih =>
    intro skip hs hskip
    obtain ⟨he, hes⟩ := List.pairwise_cons.mp hs
    have hge : ∀ x ∈ es, ∀ k ∈ some e.userKey, k ≤ x.userKey := fun x hx k hk =>
      Option.some.inj hk ▸ InternalKey.userKey_le_of_lt (he x hx)
    have hskip' : ∀ x ∈ es, ∀ k ∈ skip, k ≤ x.userKey := fun x hx => hskip x (List.mem_cons_of_mem _ hx)
    have hbefore : hides skip u = true → u ≤ e.userKey := by
      intro hh
      obtain ⟨k, hk, hle⟩ := (Option.any_eq_true _ _).mp hh
      exact (of_decide_eq_true hle).trans (hskip e List.mem_cons_self k hk)
    have hsome : hides (some e.userKey) u = true ↔ u ≤ e.userKey := by simp [hides]
    rw [skipAfter, List.exists_mem_cons_iff]
    by_cases hseq : e.sequence ≤ s
    · rw [if_pos hseq]
      simp only [hseq, true_and]
      cases e.shown with
      | none =>
        rw [ih hes hge, hsome]
        tauto
      | some v =>
        dsimp only
        split_ifs with hh
        · rw [ih hes hskip']
          have hupto : u ≤ e.userKey → hides skip u = true := hides_mono hh
          tauto
        · rw [ih hes hge, hsome]
          tauto
    · rw [if_neg hseq, ih hes hskip']
      simp [hseq]

section

variable {s : ℕ} {es : List Entry} {i m : ℕ} {e : Entry}

/-- The entry whose value is shown for its user key. -/
structure ShownAt (s : ℕ) (es : List Entry) (i : ℕ) (e : Entry) : Prop where
  entry : es[i]? = some e
  seen : e.sequence ≤ s
  value : e.shown = some e.value
  newest : ∀ x ∈ es.take i, x.sequence ≤ s → x.userKey < e.userKey

/-- Entries the reader does not see change nothing. -/
theorem visible_unseen {l : List Entry} (h : ∀ x ∈ l, s < x.sequence) :
    ∀ skip, visible s skip l = [] ∧ skipAfter s skip l = skip := by
  induction l with
  | nil => exact fun _ => ⟨rfl, rfl⟩
  | cons x l ih =>
    intro skip
    have hx := h x List.mem_cons_self
    rw [visible, skipAfter, if_neg (by omega), if_neg (by omega)]
    exact ih (fun y hy => h y (List.mem_cons_of_mem _ hy)) skip

/-- No entry from `m` to `i` is seen. -/
def Unseen (s : ℕ) (es : List Entry) (m i : ℕ) : Prop :=
  ∀ (j : ℕ) (x : Entry), m ≤ j → j < i → es[j]? = some x → s < x.sequence

theorem Unseen.forall_mem (h : Unseen s es m i) : ∀ x ∈ (es.take i).drop m, s < x.sequence := by
  intro x hx
  obtain ⟨j, hj⟩ := List.mem_iff_getElem?.mp hx
  rw [List.getElem?_drop] at hj
  have hlt : m + j < i := by
    have := (List.getElem?_eq_some_iff.mp hj).1
    rw [List.length_take] at this
    omega
  rw [List.getElem?_take_of_lt hlt] at hj
  exact h (m + j) x (by omega) hlt hj

theorem visible_take_unseen (hmi : m ≤ i) (h : Unseen s es m i) :
    visible s none (es.take i) = visible s none (es.take m) := by
  have hsplit : es.take i = es.take m ++ (es.take i).drop m := by
    conv_lhs => rw [← List.take_append_drop m (es.take i)]
    rw [List.take_take, min_eq_left hmi]
  rw [hsplit, visible_append, (visible_unseen h.forall_mem _).1, List.append_nil]

theorem visible_drop_unseen (hmi : m ≤ i) (h : Unseen s es m i) (skip : Option Bytes) :
    visible s skip (es.drop m) = visible s skip (es.drop i) := by
  have hsplit : es.drop m = (es.take i).drop m ++ es.drop i := by
    rw [List.drop_take, show es.drop i = (es.drop m).drop (i - m) by
      rw [List.drop_drop, Nat.add_sub_cancel' hmi], List.take_append_drop]
  rw [hsplit, visible_append, (visible_unseen h.forall_mem _).1, (visible_unseen h.forall_mem _).2,
    List.nil_append]

theorem take_succ_of_get (he : es[i]? = some e) : es.take (i + 1) = es.take i ++ [e] := by
  rw [List.take_add_one, he]
  rfl

theorem eq_take_append_drop (he : es[i]? = some e) : es = es.take i ++ e :: es.drop (i + 1) := by
  obtain ⟨hi, rfl⟩ := List.getElem?_eq_some_iff.mp he
  rw [← List.drop_eq_getElem_cons hi, List.take_append_drop]

theorem drop_of_get (he : es[i]? = some e) : es.drop i = e :: es.drop (i + 1) := by
  obtain ⟨hi, rfl⟩ := List.getElem?_eq_some_iff.mp he
  exact List.drop_eq_getElem_cons hi

variable (hsorted : Entry.Sorted es)
include hsorted

theorem hides_take (u : Bytes) :
    hides (skipAfter s none (es.take i)) u = true ↔ ∃ x ∈ es.take i, x.sequence ≤ s ∧ u ≤ x.userKey := by
  have hnone : ∀ e ∈ es.take i, ∀ k ∈ (none : Option Bytes), k ≤ e.userKey := by simp
  rw [hides_skipAfter (List.Pairwise.sublist (List.take_sublist i es) hsorted) hnone]
  simp [hides]

theorem ShownAt.not_hidden (h : ShownAt s es i e) : hides (skipAfter s none (es.take i)) e.userKey = false := by
  rw [Bool.eq_false_iff, Ne, hides_take hsorted]
  rintro ⟨x, hx, hseq, hle⟩
  exact absurd (h.newest x hx hseq) (not_lt.mpr hle)

/-- **The pairs around a version that is shown.** -/
theorem visible_split (h : ShownAt s es i e) :
    visible s none es = visible s none (es.take i) ++
      (e.userKey, e.value) :: visible s (some e.userKey) (es.drop (i + 1)) := by
  have hnot := h.not_hidden hsorted
  conv_lhs => rw [eq_take_append_drop h.entry, visible_append, visible, if_pos h.seen, h.value]
  unfold hides at hnot
  simp only [hnot, if_false, Bool.false_eq_true]

theorem visible_take_shown (h : ShownAt s es i e) :
    visible s none (es.take (i + 1)) = visible s none (es.take i) ++ [(e.userKey, e.value)] := by
  have hnot := h.not_hidden hsorted
  rw [take_succ_of_get h.entry, visible_append, visible, if_pos h.seen, h.value]
  unfold hides at hnot
  simp only [hnot, if_false, Bool.false_eq_true]
  rfl

omit hsorted in
theorem visible_take_deletion (he : es[i]? = some e) (hd : e.shown = none) :
    visible s none (es.take (i + 1)) = visible s none (es.take i) := by
  rw [take_succ_of_get he, visible_append, visible, hd]
  simp [visible]

/-- A version behind a newer one that is seen is not shown. -/
theorem visible_take_hidden (he : es[i]? = some e) {v : Bytes} (hv : e.shown = some v) {x : Entry}
    (hx : x ∈ es.take i) (hseq : x.sequence ≤ s) (hu : e.userKey ≤ x.userKey) :
    visible s none (es.take (i + 1)) = visible s none (es.take i) := by
  have hh := (hides_take (s := s) (i := i) hsorted e.userKey).mpr ⟨x, hx, hseq, hu⟩
  rw [take_succ_of_get he, visible_append, visible, hv]
  unfold hides at hh
  simp only [hh, if_true, visible, ite_self, List.append_nil]

end

theorem userKey_le_of_index {es : List Entry} (hsorted : Entry.Sorted es) {i j : ℕ} {x y : Entry}
    (hij : i ≤ j) (hx : es[i]? = some x) (hy : es[j]? = some y) : x.userKey ≤ y.userKey := by
  obtain ⟨hi, rfl⟩ := List.getElem?_eq_some_iff.mp hx
  obtain ⟨hj, rfl⟩ := List.getElem?_eq_some_iff.mp hy
  rcases hij.lt_or_eq with hlt | rfl
  · exact InternalKey.userKey_le_of_lt (List.pairwise_iff_getElem.mp hsorted i j hi hj hlt)
  · exact le_rfl

theorem exists_index_of_mem_take {es : List Entry} {i : ℕ} {x : Entry} (hx : x ∈ es.take i) :
    ∃ j < i, es[j]? = some x := by
  obtain ⟨j, hj⟩ := List.mem_iff_getElem?.mp hx
  have hlt : j < i := by
    have := (List.getElem?_eq_some_iff.mp hj).1
    rw [List.length_take] at this
    omega
  exact ⟨j, hlt, by rwa [List.getElem?_take_of_lt hlt] at hj⟩

theorem mem_take_of_index {es : List Entry} {i j : ℕ} {x : Entry} (hj : es[j]? = some x) (hij : j < i) :
    x ∈ es.take i :=
  List.mem_of_getElem? (i := j) (by rwa [List.getElem?_take_of_lt hij])

/-- A key that hides none of the entries changes nothing. -/
theorem visible_of_not_hidden {s : ℕ} {l : List Entry} {skip : Option Bytes}
    (h : ∀ x ∈ l, hides skip x.userKey = false) : visible s skip l = visible s none l := by
  induction l with
  | nil => rfl
  | cons e l ih =>
    have he := h e List.mem_cons_self
    unfold hides at he
    rw [visible, visible, ih fun x hx => h x (List.mem_cons_of_mem _ hx)]
    simp only [he, Option.any_none]

section

variable {s : ℕ} {es : List Entry} (hsorted : Entry.Sorted es) (hwf : ∀ e ∈ es, e.key.WellFormed)
  (target : Bytes)
include hsorted hwf

/-- The entries before a lookup key that are seen have smaller user keys, those at or after
    it do not. -/
theorem lookup_cut {i : ℕ} (hi : i = es.findIdx fun e => !keyBelow Entry.key (makeLookupKey target s) e) :
    (∀ x ∈ es.take i, x.sequence ≤ s → x.userKey < target) ∧ ∀ x ∈ es.drop i, target ≤ x.userKey := by
  subst hi
  refine ⟨fun x hx hseq => ?_, fun x hx => ?_⟩
  · obtain ⟨j, hj, hjx⟩ := exists_index_of_mem_take hx
    obtain ⟨hlen, rfl⟩ := List.getElem?_eq_some_iff.mp hjx
    have hlt : es[j].key < makeLookupKey target s := of_decide_eq_true (Lib.cut_of_lt hj hlen)
    rcases InternalKey.lt_iff.mp hlt with hu | ⟨hu, -⟩
    · exact hu
    · exact absurd hlt (not_lt.mpr ((makeLookupKey_le_iff (hwf _ (List.getElem_mem hlen)).1 hu).mpr hseq))
  · obtain ⟨j, hj⟩ := List.mem_iff_getElem?.mp hx
    rw [List.getElem?_drop] at hj
    obtain ⟨hlen, rfl⟩ := List.getElem?_eq_some_iff.mp hj
    have hnot := Lib.not_cut_of_le hsorted (Lib.isCut_keyBelow (makeLookupKey target s))
      (Nat.le_add_right _ j) hlen
    exact InternalKey.userKey_le_of_le (not_lt.mp (of_decide_eq_false hnot))

/-- **What is visible from a target on.** -/
theorem visible_from {i : ℕ} (hi : i = es.findIdx fun e => !keyBelow Entry.key (makeLookupKey target s) e) :
    visible s none (es.drop i) =
      (visible s none es).drop ((visible s none es).findIdx fun p => !keyBelow Prod.fst target p) := by
  obtain ⟨hbefore, hafter⟩ := lookup_cut hsorted hwf target hi
  have hnone : ∀ l : List Entry, ∀ e ∈ l, ∀ k ∈ (none : Option Bytes), k ≤ e.userKey := by simp
  have htake : Entry.Sorted (es.take i) := List.Pairwise.sublist (List.take_sublist i es) hsorted
  have hdrop : Entry.Sorted (es.drop i) := List.Pairwise.sublist (List.drop_sublist i es) hsorted
  have hsplit : visible s none es = visible s none (es.take i) ++ visible s none (es.drop i) := by
    have hnot : ∀ x ∈ es.drop i, hides (skipAfter s none (es.take i)) x.userKey = false := by
      intro x hx
      rw [Bool.eq_false_iff, Ne, hides_take hsorted]
      rintro ⟨y, hy, hys, hle⟩
      exact absurd ((hle.trans_lt (hbefore y hy hys)).trans_le (hafter x hx)) (lt_irrefl _)
    conv_lhs => rw [← List.take_append_drop i es]
    rw [visible_append, visible_of_not_hidden hnot]
  have hkeysA : ∀ p ∈ visible s none (es.take i), (!keyBelow Prod.fst target p) = false := by
    intro p hp
    obtain ⟨e, ⟨he, hu, hseq, -⟩, -⟩ := ((mem_visible htake (hnone _) p.1 p.2).mp hp).2
    have hlt : p.1 < target := hu ▸ hbefore e he hseq
    simp [keyBelow, hlt]
  have hkeysB : ∀ p ∈ visible s none (es.drop i), (!keyBelow Prod.fst target p) = true := by
    intro p hp
    obtain ⟨e, ⟨he, hu, -⟩, -⟩ := ((mem_visible hdrop (hnone _) p.1 p.2).mp hp).2
    have hle : target ≤ p.1 := hu ▸ hafter e he
    simp [keyBelow, hle]
  have hidx : (visible s none es).findIdx (fun p => !keyBelow Prod.fst target p) =
      (visible s none (es.take i)).length := by
    rw [hsplit, List.findIdx_append, List.findIdx_eq_length.mpr hkeysA, if_neg (lt_irrefl _)]
    cases hB : visible s none (es.drop i) with
    | nil => simp
    | cons p ps =>
      rw [List.findIdx_cons, hkeysB p (hB ▸ List.mem_cons_self)]
      simp
  rw [hidx, hsplit, List.drop_left]

end

/-! ## The loops -/

namespace DBIter

/-- The iterator's calls, as a cursor over pairs. -/
def cursor (C : Cursor σ Entry InternalKey) (s fuel : ℕ) : Cursor (DBIter σ) (Bytes × Bytes) Bytes where
  current it := if it.valid then some (it.key C, it.value C) else none
  seekToFirst := seekToFirst C s fuel
  seekToLast := seekToLast C s fuel
  seek := seek C s fuel
  next := next C s fuel
  prev := prev C s fuel

variable {C : Cursor σ Entry InternalKey} {s : ℕ} {es : List Entry} {R : σ → Option ℕ → Prop} {i m : ℕ}
  {it : DBIter σ}

/-- The iterator is not valid, and nothing is wrong. -/
structure Ended (R : σ → Option ℕ → Prop) (it : DBIter σ) : Prop where
  invalid : it.valid = false
  status : it.status = .ok
  place : ∃ q, R it.iter q

/-- The iterator shows the entry at `i`, reached moving forward. -/
structure OnForward (s : ℕ) (es : List Entry) (R : σ → Option ℕ → Prop) (it : DBIter σ) (i : ℕ) (e : Entry) :
    Prop where
  valid : it.valid = true
  status : it.status = .ok
  direction : it.direction = .forward
  shown : ShownAt s es i e
  place : R it.iter (some i)

/-- The iterator shows the entry at `i`, reached moving backward: it stands before, with
    nothing that is seen between. -/
structure OnReverse (s : ℕ) (es : List Entry) (R : σ → Option ℕ → Prop) (it : DBIter σ) (i : ℕ) (e : Entry) :
    Prop where
  valid : it.valid = true
  status : it.status = .ok
  direction : it.direction = .reverse
  shown : ShownAt s es i e
  savedKey : it.savedKey = e.userKey
  savedValue : it.savedValue = e.value
  place : ∃ m ≤ i, R it.iter (posBefore m) ∧ Unseen s es m i

variable (hC : Follows C (keyBelow Entry.key) es R) (hsorted : Entry.Sorted es)
  (hwf : ∀ e ∈ es, e.key.WellFormed)

/-- What every entry's key is parsed to. -/
theorem parse_cases {e : Entry} (he : e.key.WellFormed) :
    (parseInternalKey e.key = some ⟨e.userKey, e.sequence, .deletion⟩ ∧ e.shown = none) ∨
      (parseInternalKey e.key = some ⟨e.userKey, e.sequence, .value⟩ ∧ e.shown = some e.value) := by
  obtain ⟨t, ht, hparse⟩ := parseInternalKey_wellFormed he
  cases t with
  | deletion => exact Or.inl ⟨hparse, (Entry.shown_eq_none_iff he).mpr (by simpa using ht.symm)⟩
  | value => exact Or.inr ⟨hparse, if_pos ht.symm⟩

/-- A turn of the backward loop at a well-formed key. -/
theorem findPrevLoop_step {fuel : ℕ} {type : ValueType} {x : Entry} (hcur : C.current it.iter = some x)
    (hx : x.key.WellFormed) :
    findPrevLoop C s (fuel + 1) type it =
      if x.sequence ≤ s then
        if type ≠ .deletion ∧ x.userKey < it.savedKey then (type, it, true)
        else
          match x.shown with
          | none => findPrevLoop C s fuel .deletion
              { it with savedKey := [], savedValue := [], iter := C.prev it.iter }
          | some _ => findPrevLoop C s fuel .value
              { it with savedKey := x.userKey, savedValue := x.value, iter := C.prev it.iter }
      else findPrevLoop C s fuel type { it with iter := C.prev it.iter } := by
  rw [findPrevLoop, hcur]
  rcases parse_cases hx with ⟨hparse, hshown⟩ | ⟨hparse, hshown⟩
  · simp only [hparse, hshown]
  · simp only [hparse, hshown]

include hC hsorted hwf

/-- **Forward**: the next pair that is visible, where every key seen before `i` that comes
    again is decided. -/
theorem findNextUserEntry_at :
    ∀ {fuel i : ℕ} {skipping : Bool} {it : DBIter σ} {skip : Option Bytes},
      i ≤ es.length → es.length < fuel + i → R it.iter (posOf es i) → it.direction = .forward →
      it.status = .ok → skip = (if skipping then some it.savedKey else none) →
      (∀ y ∈ es.take i, y.sequence ≤ s → ∀ x ∈ es.drop i, x.userKey = y.userKey →
        hides skip x.userKey = true) →
      (visible s skip (es.drop i) = [] ∧ Ended R (findNextUserEntry C s fuel skipping it)) ∨
      ∃ j e, OnForward s es R (findNextUserEntry C s fuel skipping it) j e ∧
        visible s skip (es.drop i) = (e.userKey, e.value) :: visible s (some e.userKey) (es.drop (j + 1)) := by
  intro fuel
  induction fuel with
  | zero =>
    intro i skipping it skip hle hfuel
    omega
  | succ fuel ih =>
    intro i skipping it skip hle hfuel hR hdir hstatus hskip hdecided
    rw [findNextUserEntry]
    by_cases hi : i < es.length
    · obtain ⟨e, he⟩ : ∃ e, es[i]? = some e := ⟨_, List.getElem?_eq_getElem hi⟩
      rw [posOf_of_lt hi] at hR
      have hcur : C.current it.iter = some e := by rw [hC.current hR, Option.bind_some, he]
      have hnext := hC.next hR
      have hdrop := drop_of_get he
      -- an entry that is passed was not seen, or its key is decided from now on
      have hpassed : ∀ {skip' : Option Bytes}, (e.sequence ≤ s → ∀ u ≤ e.userKey, hides skip' u = true) →
          (¬ e.sequence ≤ s → skip' = skip) →
          ∀ y ∈ es.take (i + 1), y.sequence ≤ s → ∀ x ∈ es.drop (i + 1), x.userKey = y.userKey →
            hides skip' x.userKey = true := by
        intro skip' hseen hunseen y hy hys x hx hxy
        by_cases hes : e.sequence ≤ s
        · refine hseen hes _ ?_
          obtain ⟨j, hj, hjy⟩ := exists_index_of_mem_take hy
          rw [hxy]
          exact userKey_le_of_index hsorted (by omega) hjy he
        · rw [take_succ_of_get he] at hy
          rcases List.mem_append.mp hy with hy | hy
          · rw [hunseen hes]
            exact hdecided y hy hys x (hdrop ▸ List.mem_cons_of_mem _ hx) hxy
          · rw [List.mem_singleton.mp hy] at hys
            exact absurd hys hes
      rw [hcur, hdrop, visible]
      simp only
      rcases parse_cases (hwf e (List.mem_of_getElem? he)) with ⟨hparse, hshown⟩ | ⟨hparse, hshown⟩
      all_goals
        rw [hparse, hshown]
        simp only
      · split_ifs with hseq
        · exact ih (by omega) (by omega) hnext hdir hstatus rfl (hpassed
            (fun _ u hu => by simpa [hides] using hu) fun hn => absurd hseq hn)
        · exact ih (by omega) (by omega) hnext hdir hstatus hskip (hpassed
            (fun h => absurd h hseq) fun _ => rfl)
      · have hhid : (skipping && decide (e.userKey ≤ it.savedKey)) = hides skip e.userKey := by
          rw [hskip]
          cases skipping <;> rfl
        rw [hhid, show (skip.any fun u => decide (e.userKey ≤ u)) = hides skip e.userKey from rfl]
        split_ifs with hseq hh
        · exact ih (by omega) (by omega) hnext hdir hstatus hskip (hpassed
            (fun _ u hu => hides_mono hh hu) fun hn => absurd hseq hn)
        · refine Or.inr ⟨i, e, ⟨rfl, hstatus, hdir, ⟨he, hseq, hshown, fun x hx hxs => ?_⟩, hR⟩, rfl⟩
          obtain ⟨j, hj, hjx⟩ := exists_index_of_mem_take hx
          refine lt_of_le_of_ne (userKey_le_of_index hsorted hj.le hjx he) fun heq => hh ?_
          exact hdecided x hx hxs e (hdrop ▸ List.mem_cons_self) heq.symm
        · exact ih (by omega) (by omega) hnext hdir hstatus hskip (hpassed
            (fun h => absurd h hseq) fun _ => rfl)
    · rw [posOf_of_le (not_lt.mp hi)] at hR
      rw [hC.current_none hR, List.drop_eq_nil_of_le (not_lt.mp hi)]
      exact Or.inl ⟨rfl, rfl, hstatus, _, hR⟩

omit hC hsorted hwf in
/-- The candidate of the backward loop: a version whose value is kept, with nothing that is
    seen between it and the place reached. -/
structure Candidate (s : ℕ) (es : List Entry) (it : DBIter σ) (m i : ℕ) (e : Entry) : Prop where
  le : m ≤ i
  entry : es[i]? = some e
  seen : e.sequence ≤ s
  value : e.shown = some e.value
  savedKey : it.savedKey = e.userKey
  savedValue : it.savedValue = e.value
  unseen : Unseen s es m i

/-- What the backward loop has to decide: the entries up to its candidate, or those it has
    not met. -/
def Open (s : ℕ) (es : List Entry) (it : DBIter σ) (m : ℕ) (type : ValueType) (upto : ℕ) : Prop :=
  match type with
  | .deletion => upto = m
  | .value => ∃ i e, Candidate s es it m i e ∧ upto = i + 1

omit hC hsorted hwf in
theorem Unseen.extend {x : Entry} (h : Unseen s es (m + 1) i) (hx : es[m]? = some x) (hs : s < x.sequence) :
    Unseen s es m i := by
  intro j y hmj hji hy
  rcases hmj.lt_or_eq with hlt | rfl
  · exact h j y hlt hji hy
  · rwa [Option.some.inj (hy.symm.trans hx)]

/-- **Backward**: the last pair that is visible up to the candidate. -/
theorem findPrevLoop_at :
    ∀ {fuel m upto : ℕ} {type : ValueType} {it : DBIter σ}, m < fuel → m ≤ es.length →
      R it.iter (posBefore m) → it.status = .ok → it.direction = .reverse → Open s es it m type upto →
      ∃ type' it', findPrevLoop C s fuel type it = (type', it', true) ∧ it'.status = .ok ∧
        it'.direction = .reverse ∧ (∃ q, R it'.iter q) ∧
        match type' with
        | .deletion => visible s none (es.take upto) = []
        | .value => ∃ m' i e, Candidate s es it' m' i e ∧ R it'.iter (posBefore m') ∧ ShownAt s es i e ∧
            visible s none (es.take upto) = visible s none (es.take i) ++ [(e.userKey, e.value)] := by
  intro fuel
  induction fuel with
  | zero =>
    intro m upto type it hfuel
    omega
  | succ fuel ih =>
    intro m upto type it hfuel hle hR hstatus hdir hopen
    cases m with
    | zero =>
      -- no entry is left: the candidate stands
      have hR : R it.iter none := hR
      rw [findPrevLoop, hC.current_none hR]
      refine ⟨type, it, rfl, hstatus, hdir, ⟨_, hR⟩, ?_⟩
      cases type with
      | deletion =>
        have hupto : upto = 0 := hopen
        rw [hupto]
        rfl
      | value =>
        obtain ⟨i, e, hc, rfl⟩ := hopen
        have hshown : ShownAt s es i e := ⟨hc.entry, hc.seen, hc.value, fun x hx hxs => by
          obtain ⟨j, hj, hjx⟩ := exists_index_of_mem_take hx
          have := hc.unseen j x (Nat.zero_le j) hj hjx
          omega⟩
        exact ⟨0, i, e, hc, hR, hshown, visible_take_shown hsorted hshown⟩
    | succ m =>
      have hR : R it.iter (some m) := hR
      obtain ⟨x, hx⟩ : ∃ x, es[m]? = some x := ⟨_, List.getElem?_eq_getElem (by omega)⟩
      have hcur : C.current it.iter = some x := by rw [hC.current hR, Option.bind_some, hx]
      have hprev : R (C.prev it.iter) (posBefore m) := by
        cases m with
        | zero => exact hC.prev_zero hR
        | succ m => exact hC.prev hR
      -- up to a candidate that a newer version follows, nothing more is visible than up to that
      have hupto : ¬ (type ≠ .deletion ∧ x.userKey < it.savedKey) → x.sequence ≤ s →
          visible s none (es.take upto) = visible s none (es.take (m + 1)) := by
        intro hgo hseq
        cases type with
        | deletion =>
          have hupto : upto = m + 1 := hopen
          rw [hupto]
        | value =>
          obtain ⟨i, e, hc, rfl⟩ := hopen
          have hge : e.userKey ≤ x.userKey := by
            rw [← hc.savedKey]
            exact not_lt.mp fun hlt => hgo ⟨by simp, hlt⟩
          rw [visible_take_hidden hsorted hc.entry hc.value (mem_take_of_index hx hc.le) hseq hge,
            visible_take_unseen hc.le hc.unseen]
      rw [findPrevLoop_step hcur (hwf x (List.mem_of_getElem? hx))]
      split_ifs with hseq hbreak
      · -- the key before the candidate's: the candidate is the newest that is seen
        refine ⟨type, it, rfl, hstatus, hdir, ⟨_, hR⟩, ?_⟩
        cases type with
        | deletion => exact absurd rfl hbreak.1
        | value =>
          obtain ⟨i, e, hc, rfl⟩ := hopen
          have hshown : ShownAt s es i e := ⟨hc.entry, hc.seen, hc.value, fun y hy hys => by
            obtain ⟨j, hj, hjy⟩ := exists_index_of_mem_take hy
            have hjm : j ≤ m := by
              by_contra hgt
              have := hc.unseen j y (by omega) hj hjy
              omega
            rw [← hc.savedKey]
            exact (userKey_le_of_index hsorted hjm hjy hx).trans_lt hbreak.2⟩
          exact ⟨m + 1, i, e, hc, hR, hshown, visible_take_shown hsorted hshown⟩
      · have hvis := hupto hbreak hseq
        cases hshown : x.shown with
        | none =>
          rw [hvis, visible_take_deletion hx hshown]
          exact @ih m m .deletion { it with savedKey := [], savedValue := [], iter := C.prev it.iter }
            (by omega) (by omega) hprev hstatus hdir rfl
        | some v =>
          have hv : v = x.value := by
            rcases parse_cases (hwf x (List.mem_of_getElem? hx)) with ⟨-, hn⟩ | ⟨-, hv⟩
            · rw [hn] at hshown
              cases hshown
            · exact Option.some.inj (hshown.symm.trans hv)
          subst hv
          rw [hvis]
          refine @ih m (m + 1) .value
            { it with savedKey := x.userKey, savedValue := x.value, iter := C.prev it.iter }
            (by omega) (by omega) hprev hstatus hdir ⟨m, x, ⟨le_rfl, hx, hseq, hshown, rfl, rfl, ?_⟩, rfl⟩
          intro j y hmj hjm
          omega
      · have hunseen : s < x.sequence := not_le.mp hseq
        cases type with
        | deletion =>
          have hupto : upto = m + 1 := hopen
          have hone : Unseen s es m (m + 1) := by
            intro j y hmj hjm hy
            obtain rfl : j = m := by omega
            rwa [Option.some.inj (hy.symm.trans hx)]
          rw [hupto, visible_take_unseen (Nat.le_succ m) hone]
          exact @ih m m .deletion { it with iter := C.prev it.iter } (by omega) (by omega) hprev hstatus
            hdir rfl
        | value =>
          obtain ⟨i, e, hc, rfl⟩ := hopen
          exact @ih m (i + 1) .value { it with iter := C.prev it.iter } (by omega) (by omega) hprev hstatus
            hdir ⟨i, e, ⟨by have := hc.le; omega, hc.entry, hc.seen, hc.value, hc.savedKey, hc.savedValue,
              Unseen.extend hc.unseen hx hunseen⟩, rfl⟩

/-! ## Positions -/

/-- Positions of the iterator in the list of visible pairs. -/
def At (s : ℕ) (es : List Entry) (R : σ → Option ℕ → Prop) (it : DBIter σ) : Option ℕ → Prop
  | none => Ended R it
  | some n => ∃ i e, n = (visible s none (es.take i)).length ∧
      (OnForward s es R it i e ∨ OnReverse s es R it i e)

omit hC hwf in
theorem drop_visible {e : Entry} (h : ShownAt s es i e) :
    (visible s none es).drop (visible s none (es.take i)).length =
        (e.userKey, e.value) :: visible s (some e.userKey) (es.drop (i + 1)) ∧
      (visible s none es).drop ((visible s none (es.take i)).length + 1) =
        visible s (some e.userKey) (es.drop (i + 1)) := by
  rw [visible_split hsorted h]
  refine ⟨List.drop_left, ?_⟩
  rw [← List.drop_drop, List.drop_left]
  rfl

/-- Where the forward loop ends. -/
theorem findNextUserEntry_lands {fuel i k : ℕ} {skipping : Bool} {it : DBIter σ} {skip : Option Bytes}
    (hi : i ≤ es.length) (hfuel : es.length < fuel) (hR : R it.iter (posOf es i))
    (hdir : it.direction = .forward) (hstatus : it.status = .ok)
    (hskip : skip = (if skipping then some it.savedKey else none))
    (hdecided : ∀ y ∈ es.take i, y.sequence ≤ s → ∀ x ∈ es.drop i, x.userKey = y.userKey →
      hides skip x.userKey = true)
    (hrest : visible s skip (es.drop i) = (visible s none es).drop k) :
    At s es R (findNextUserEntry C s fuel skipping it) (posOf (visible s none es) k) := by
  rcases findNextUserEntry_at hC hsorted hwf hi (by omega : es.length < fuel + i) hR hdir hstatus hskip
    hdecided with ⟨hnil, hended⟩ | ⟨j, e, hon, hcons⟩
  · rw [hrest, List.drop_eq_nil_iff] at hnil
    rw [posOf_of_le hnil]
    exact hended
  · have hsame := (drop_visible hsorted hon.shown).1
    rw [hrest, ← hsame] at hcons
    -- two suffixes of one list that are equal and not empty begin at one place
    have hlen := congrArg List.length hcons
    have hpos := congrArg List.length hsame
    rw [List.length_drop] at hlen hpos
    rw [List.length_drop] at hlen
    rw [List.length_cons] at hpos
    have hk : k = (visible s none (es.take j)).length := by omega
    rw [hk, posOf_of_lt (by omega)]
    exact ⟨j, e, rfl, Or.inl hon⟩

/-- Where the backward loop ends. -/
theorem findPrevUserEntry_lands {fuel m : ℕ} {it : DBIter σ} (hm : m ≤ es.length) (hfuel : es.length < fuel)
    (hR : R it.iter (posBefore m)) (hdir : it.direction = .reverse) (hstatus : it.status = .ok) :
    At s es R (findPrevUserEntry C s fuel it) (posBefore (visible s none (es.take m)).length) := by
  obtain ⟨type, it', heq, hstatus', hdir', hplace, hres⟩ := findPrevLoop_at (s := s) hC hsorted hwf
    (by omega : m < fuel) hm hR hstatus hdir (show Open s es it m .deletion m from rfl)
  rw [findPrevUserEntry, heq]
  cases type with
  | deletion =>
    have hnil : visible s none (es.take m) = [] := hres
    rw [hnil]
    exact ⟨rfl, hstatus', hplace⟩
  | value =>
    obtain ⟨m', i, e, hc, hR', hshown, hvis⟩ := hres
    rw [hvis, List.length_append]
    exact ⟨i, e, rfl, Or.inr ⟨rfl, hstatus', hdir', hshown, hc.savedKey, hc.savedValue, m', hc.le, hR',
      hc.unseen⟩⟩

/-! ## Moves -/

theorem seekToFirst_at {fuel : ℕ} (hfuel : es.length < fuel) (hstatus : it.status = .ok) {q : Option ℕ}
    (hR : R it.iter q) : At s es R (seekToFirst C s fuel it) (posOf (visible s none es) 0) := by
  have hfirst := hC.seekToFirst hR
  unfold seekToFirst
  simp only
  split_ifs with hvalid
  · exact findNextUserEntry_lands hC hsorted hwf (Nat.zero_le _) hfuel hfirst rfl hstatus rfl (by simp) rfl
  · have hnil : es = [] := by
      by_contra hne
      rw [posOf_of_lt (List.length_pos_iff.mpr hne)] at hfirst
      rw [(hC.current_some hfirst).2] at hvalid
      exact hvalid rfl
    have hnone : posOf (visible s none es) 0 = none := by
      rw [hnil]
      rfl
    rw [hnone]
    exact ⟨rfl, hstatus, _, hfirst⟩

theorem seekToLast_at {fuel : ℕ} (hfuel : es.length < fuel) (hstatus : it.status = .ok) {q : Option ℕ}
    (hR : R it.iter q) : At s es R (seekToLast C s fuel it) (lastPos (visible s none es)) := by
  have hlast := hC.seekToLast hR
  rw [Lib.lastPos_eq] at hlast
  have hlands : At s es R (seekToLast C s fuel it) (posBefore (visible s none (es.take es.length)).length) :=
    findPrevUserEntry_lands hC hsorted hwf le_rfl hfuel hlast rfl hstatus
  rwa [List.take_length, ← Lib.lastPos_eq] at hlands

theorem seek_at {fuel : ℕ} (hfuel : es.length < fuel) (hstatus : it.status = .ok) {q : Option ℕ}
    (hR : R it.iter q) (target : Bytes) : At s es R (seek C s fuel target it) (posOf (visible s none es)
      ((visible s none es).findIdx fun p => !keyBelow Prod.fst target p)) := by
  have hseek := hC.seek (makeLookupKey target s) hR
  have hrest := visible_from (s := s) hsorted hwf target rfl
  obtain ⟨hbefore, hafter⟩ := lookup_cut (s := s) hsorted hwf target rfl
  unfold seek
  simp only
  split_ifs with hvalid
  · refine findNextUserEntry_lands hC hsorted hwf List.findIdx_le_length hfuel hseek rfl hstatus rfl
      (fun y hy hys x hx hxy => ?_) hrest
    exact absurd (((hbefore y hy hys).trans_le (hafter x hx)).trans_eq hxy) (lt_irrefl _)
  · -- no entry is left, so no pair is
    have hend : es.length ≤ es.findIdx fun e => !keyBelow Entry.key (makeLookupKey target s) e := by
      by_contra hlt
      rw [posOf_of_lt (not_le.mp hlt)] at hseek
      rw [(hC.current_some hseek).2] at hvalid
      exact hvalid rfl
    rw [List.drop_eq_nil_of_le hend, eq_comm] at hrest
    rw [posOf_of_le (List.drop_eq_nil_iff.mp hrest)]
    exact ⟨rfl, hstatus, _, hseek⟩

/-- Going on after the entry shown, from any place between which and it nothing is seen. -/
theorem next_lands (it : DBIter σ) {fuel m : ℕ} {e : Entry} (hfuel : es.length < fuel) (hshown : ShownAt s es i e)
    (hmi : m ≤ i + 1) (hplace : R it.iter (posOf es m)) (hdir : it.direction = .forward)
    (hstatus : it.status = .ok) (hsaved : it.savedKey = e.userKey)
    (hrest : visible s (some e.userKey) (es.drop m) = visible s (some e.userKey) (es.drop (i + 1))) :
    At s es R (if (C.current it.iter).isSome then findNextUserEntry C s fuel true it
      else { it with valid := false, savedKey := [] })
      (posOf (visible s none es) ((visible s none (es.take i)).length + 1)) := by
  have hdrop := (drop_visible hsorted hshown).2
  have hlen := (List.getElem?_eq_some_iff.mp hshown.entry).1
  split_ifs with hvalid
  · refine findNextUserEntry_lands hC hsorted hwf (by omega) hfuel hplace hdir hstatus rfl
      (fun y hy hys x hx hxy => ?_) ?_
    · obtain ⟨j, hj, hjy⟩ := exists_index_of_mem_take hy
      have hle := userKey_le_of_index hsorted (by omega : j ≤ i) hjy hshown.entry
      simpa [hides, hsaved, hxy] using hle
    · rw [if_pos rfl, hsaved, hrest, hdrop]
  · have hend : es.length ≤ m := by
      by_contra hlt
      rw [posOf_of_lt (not_le.mp hlt)] at hplace
      rw [(hC.current_some hplace).2] at hvalid
      exact hvalid rfl
    rw [← hrest, List.drop_eq_nil_of_le hend] at hdrop
    rw [posOf_of_le (List.drop_eq_nil_iff.mp hdrop)]
    exact ⟨rfl, hstatus, _, hplace⟩

theorem next_at {fuel n : ℕ} (hfuel : es.length < fuel) (hat : At s es R it (some n)) :
    At s es R (next C s fuel it) (posOf (visible s none es) (n + 1)) := by
  obtain ⟨i, e, rfl, hon | hon⟩ := hat
  · have hcur : C.current it.iter = some e := by
      rw [hC.current hon.place, Option.bind_some, hon.shown.entry]
    unfold next
    rw [hon.direction]
    simp only
    rw [hcur]
    exact next_lands hC hsorted hwf
      ⟨C.next it.iter, it.status, e.userKey, it.savedValue, .forward, it.valid⟩ hfuel hon.shown le_rfl
      (hC.next hon.place) rfl hon.status rfl rfl
  · obtain ⟨m, hmi, hR, hunseen⟩ := hon.place
    -- the first entry after the place before
    have hplace : R (if (C.current it.iter).isSome then C.next it.iter else C.seekToFirst it.iter)
        (posOf es m) := by
      cases m with
      | zero =>
        have hR : R it.iter none := hR
        rw [hC.current_none hR, if_neg (by simp)]
        exact hC.seekToFirst hR
      | succ m =>
        have hR : R it.iter (some m) := hR
        rw [(hC.current_some hR).2, if_pos Option.isSome_some]
        exact hC.next hR
    unfold next
    rw [hon.direction]
    simp only
    refine next_lands hC hsorted hwf ⟨_, it.status, it.savedKey, it.savedValue, .forward, it.valid⟩ hfuel
      hon.shown (Nat.le_succ_of_le hmi) hplace rfl hon.status hon.savedKey ?_
    rw [visible_drop_unseen hmi hunseen, drop_of_get hon.shown.entry, visible, if_pos hon.shown.seen,
      hon.shown.value]
    simp

omit hsorted hwf in
/-- Back to the last entry of a smaller key. -/
theorem stepBefore_at :
    ∀ {fuel i : ℕ} {it : DBIter σ}, i < fuel → R it.iter (some i) → it.status = .ok →
      ∃ it', stepBefore C fuel it = (decide (∃ x ∈ es.take i, x.userKey < it.savedKey), it') ∧
        it'.status = .ok ∧
        ((∃ x ∈ es.take i, x.userKey < it.savedKey) → ∃ m x, m < i ∧ R it'.iter (some m) ∧ es[m]? = some x ∧
          x.userKey < it.savedKey ∧ ∀ j y, m < j → j < i → es[j]? = some y → it.savedKey ≤ y.userKey) ∧
        ((¬ ∃ x ∈ es.take i, x.userKey < it.savedKey) → Ended R it') := by
  intro fuel
  induction fuel with
  | zero =>
    intro i it hfuel
    omega
  | succ fuel ih =>
    intro i it hfuel hR hstatus
    rw [stepBefore]
    simp only
    cases i with
    | zero =>
      have hprev := hC.prev_zero hR
      have hnot : ¬ ∃ x ∈ es.take 0, x.userKey < it.savedKey := by simp
      rw [hC.current_none hprev, decide_eq_false hnot]
      exact ⟨_, rfl, hstatus, fun h => absurd h hnot, fun _ => ⟨rfl, hstatus, _, hprev⟩⟩
    | succ i =>
      have hprev := hC.prev hR
      obtain ⟨hi, hcur⟩ := hC.current_some hprev
      have hget := List.getElem?_eq_getElem hi
      rw [hcur]
      simp only
      split_ifs with hlt
      · have hex : ∃ x ∈ es.take (i + 1), x.userKey < it.savedKey :=
          ⟨es[i], mem_take_of_index hget (Nat.lt_succ_self i), hlt⟩
        rw [decide_eq_true hex]
        refine ⟨_, rfl, hstatus, fun _ => ⟨i, es[i], Nat.lt_succ_self i, hprev, hget, hlt, ?_⟩,
          fun hn => absurd hex hn⟩
        intro j y hij hji
        omega
      · obtain ⟨it', heq, hstatus', hfound, hended⟩ :=
          @ih i { it with iter := C.prev it.iter } (by omega) hprev hstatus
        have hiff : (∃ x ∈ es.take (i + 1), x.userKey < it.savedKey) ↔
            ∃ x ∈ es.take i, x.userKey < it.savedKey := by
          rw [take_succ_of_get hget]
          simp only [List.mem_append, List.mem_singleton, or_and_right, exists_or, exists_eq_left]
          exact or_iff_left hlt
        rw [decide_eq_decide.mpr hiff]
        refine ⟨it', heq, hstatus', fun hex => ?_, fun hn => hended fun hex => hn (hiff.mpr hex)⟩
        obtain ⟨m, x, hm, hRm, hx, hxlt, hbetween⟩ := hfound (hiff.mp hex)
        refine ⟨m, x, by omega, hRm, hx, hxlt, fun j y hmj hji hy => ?_⟩
        rcases Nat.lt_succ_iff_lt_or_eq.mp hji with hlt' | rfl
        · exact hbetween j y hmj hlt' hy
        · rw [hget] at hy
          rw [← Option.some.inj hy]
          exact not_lt.mp hlt

theorem prev_at {fuel n : ℕ} (hfuel : es.length < fuel) (hat : At s es R it (some n)) :
    At s es R (prev C s fuel it) (posBefore n) := by
  obtain ⟨i, e, rfl, hon | hon⟩ := hat
  · have hlen := (List.getElem?_eq_some_iff.mp hon.shown.entry).1
    have hcur : C.current it.iter = some e := by
      rw [hC.current hon.place, Option.bind_some, hon.shown.entry]
    -- an entry before it whose key is not smaller is a version that is not seen
    have hunseen : ∀ {m : ℕ}, (∀ j y, m ≤ j → j < i → es[j]? = some y → e.userKey ≤ y.userKey) →
        Unseen s es m i := by
      intro m hkeys j y hmj hji hy
      by_contra hseq
      exact absurd (hon.shown.newest y (mem_take_of_index hy hji) (not_lt.mp hseq))
        (not_lt.mpr (hkeys j y hmj hji hy))
    obtain ⟨it', heq, hstatus', hfound, hended⟩ := @stepBefore_at _ _ _ _ hC fuel i
      ⟨it.iter, it.status, e.userKey, it.savedValue, .forward, it.valid⟩ (by omega) hon.place hon.status
    unfold prev
    rw [hon.direction]
    simp only
    rw [hcur, Option.map_some, Option.getD_some, heq]
    by_cases hex : ∃ x ∈ es.take i, x.userKey < e.userKey
    · obtain ⟨m, x, hm, hR, hx, hxlt, hbetween⟩ := hfound hex
      rw [decide_eq_true (by exact hex)]
      simp only
      rw [visible_take_unseen (by omega : m + 1 ≤ i)
        (hunseen fun j y hmj hji hy => hbetween j y (by omega) hji hy)]
      exact findPrevUserEntry_lands hC hsorted hwf (by omega) hfuel hR rfl hstatus'
    · rw [decide_eq_false (by exact hex)]
      simp only
      have hnone : visible s none (es.take i) = [] := by
        rw [visible_take_unseen (Nat.zero_le i) (hunseen fun j y _ hji hy =>
          not_lt.mp fun hlt => hex ⟨y, mem_take_of_index hy hji, hlt⟩)]
        rfl
      rw [hnone]
      exact hended hex
  · obtain ⟨m, hmi, hR, hunseen⟩ := hon.place
    have hlen := (List.getElem?_eq_some_iff.mp hon.shown.entry).1
    unfold prev
    rw [hon.direction]
    simp only
    rw [visible_take_unseen hmi hunseen]
    exact findPrevUserEntry_lands hC hsorted hwf (by omega) hfuel hR hon.direction hon.status

omit hC hsorted hwf in
/-- What every position knows. -/
theorem At.common {p : Option ℕ} (hat : At s es R it p) : it.status = .ok ∧ ∃ q, R it.iter q := by
  cases p with
  | none => exact ⟨hat.status, hat.place⟩
  | some n =>
    obtain ⟨i, e, -, hon | hon⟩ := hat
    · exact ⟨hon.status, _, hon.place⟩
    · obtain ⟨m, -, hR, -⟩ := hon.place
      exact ⟨hon.status, _, hR⟩

/-- **The database iterator follows the visible pairs.** -/
theorem follows {fuel : ℕ} (hfuel : es.length < fuel) :
    Follows (cursor C s fuel) (keyBelow Prod.fst) (visible s none es) (At s es R) where
  current := by
    intro it p hat
    cases p with
    | none =>
      show (if it.valid then _ else none) = none
      rw [hat.invalid]
      rfl
    | some n =>
      obtain ⟨i, e, rfl, hon⟩ := hat
      have hget : ∀ hs : ShownAt s es i e,
          (visible s none es)[(visible s none (es.take i)).length]? = some (e.userKey, e.value) := by
        intro hs
        rw [visible_split hsorted hs, List.getElem?_append_right le_rfl, Nat.sub_self]
        rfl
      show (if it.valid then some (it.key C, it.value C) else none) = _
      rcases hon with hon | hon
      · have hcur : C.current it.iter = some e := by
          rw [hC.current hon.place, Option.bind_some, hon.shown.entry]
        rw [hon.valid, if_pos rfl, Option.bind_some, hget hon.shown, key, value, hon.direction, hcur]
        rfl
      · rw [hon.valid, if_pos rfl, Option.bind_some, hget hon.shown, key, value, hon.direction, hon.savedKey,
          hon.savedValue]
  bound := by
    rintro it n ⟨i, e, rfl, hon⟩
    have hs : ShownAt s es i e := by
      rcases hon with hon | hon
      · exact hon.shown
      · exact hon.shown
    rw [visible_split hsorted hs, List.length_append, List.length_cons]
    omega
  seekToFirst := fun hat => by
    obtain ⟨hstatus, q, hR⟩ := At.common hat
    exact seekToFirst_at hC hsorted hwf hfuel hstatus hR
  seekToLast := fun hat => by
    obtain ⟨hstatus, q, hR⟩ := At.common hat
    exact seekToLast_at hC hsorted hwf hfuel hstatus hR
  seek := fun target hat => by
    obtain ⟨hstatus, q, hR⟩ := At.common hat
    exact seek_at hC hsorted hwf hfuel hstatus hR target
  next := fun hat => next_at hC hsorted hwf hfuel hat
  prev := fun hat => prev_at hC hsorted hwf hfuel hat
  prev_zero := fun hat => prev_at hC hsorted hwf hfuel hat

end DBIter

/-- The visible pairs are the values of the newest versions that are seen. -/
theorem mem_visible_iff_newest {s : ℕ} {es : List Entry} (hsorted : Entry.Sorted es)
    (hdistinct : es.Pairwise fun a b => (a.userKey, a.sequence) ≠ (b.userKey, b.sequence)) (u v : Bytes) :
    (u, v) ∈ visible s none es ↔ ∃ e ∈ es, e.userKey = u ∧ e.sequence ≤ s ∧
      (∀ x ∈ es, x.userKey = u → x.sequence ≤ s → x.sequence ≤ e.sequence) ∧ e.shown = some v := by
  have hnone : ∀ e ∈ es, ∀ k ∈ (none : Option Bytes), k ≤ e.userKey := by simp
  rw [mem_visible hsorted hnone]
  constructor
  · rintro ⟨-, e, ⟨he, hu, hseq, hle⟩, hv⟩
    refine ⟨e, he, hu, hseq, fun x hx hxu hxs => ?_, hv⟩
    rcases hle x hx hxu hxs with hlt | ⟨-, htrailer⟩
    · exact absurd (hu.trans hxu.symm) hlt.ne
    · exact Nat.div_le_div_right htrailer
  · rintro ⟨e, he, hu, hseq, hmax, hv⟩
    refine ⟨by simp, e, ⟨he, hu, hseq, fun x hx hxu hxs => ?_⟩, hv⟩
    have hle := hmax x hx hxu hxs
    rcases hle.lt_or_eq with hlt | heq
    · refine Or.inr ⟨hu.trans hxu.symm, ?_⟩
      have hlt : x.key.trailer / 256 < e.key.trailer / 256 := hlt
      show x.key.trailer ≤ e.key.trailer
      omega
    · -- two versions of one key and sequence are one
      have hnodup : (es.map fun e => (e.userKey, e.sequence)).Nodup := List.pairwise_map.mpr hdistinct
      rw [List.inj_on_of_nodup_map hnodup hx he (Prod.ext (hxu.trans hu.symm) heq)]

end Ambar
