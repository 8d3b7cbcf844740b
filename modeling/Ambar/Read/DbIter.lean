import Ambar.Read.Get
import Ambar.Read.Sources

/-!
# The database iterator

Model of `src/db_iter.cpp` over any internal iterator. The iterator
collapses the versions of a user key into the one visible at its sequence and
passes over deletions. Loops over the internal iterator take a bound on the entries
it holds.

* `mem_visible`: the collapse rule shows exactly what a reader sees, in key order.
-/

namespace Ambar

variable {σ : Type*}

/-- `class DBIter` (lines 12–72). -/
structure DBIter (σ : Type*) where
  iter : σ
  status : Status
  savedKey : Bytes
  savedValue : Bytes
  direction : Lib.Direction
  valid : Bool

namespace DBIter

/-- `new_db_iterator` (lines 288–292). -/
def new (iter : σ) : DBIter σ := ⟨iter, .ok, [], [], .forward, false⟩

section

variable (C : Lib.Cursor σ Entry InternalKey) (sequence : ℕ)

/-- `key` (lines 22–26). -/
def key (it : DBIter σ) : Bytes :=
  match it.direction with
  | .forward => ((C.current it.iter).map (·.userKey)).getD []
  | .reverse => it.savedKey

/-- `value` (lines 28–31). -/
def value (it : DBIter σ) : Bytes :=
  match it.direction with
  | .forward => ((C.current it.iter).map (·.value)).getD []
  | .reverse => it.savedValue

/-- `find_next_user_entry` (lines 124–158), where `skip` is always `saved_key_`. -/
def findNextUserEntry : (fuel : ℕ) → (skipping : Bool) → DBIter σ → DBIter σ
  | 0, _, it => it
  | fuel + 1, skipping, it =>
    match C.current it.iter with
    | none => { it with savedKey := [], valid := false }
    | some e =>
      match parseInternalKey e.key with
      | none =>
        { it with valid := false, status := .corruption "malformed internal key in a table" }
      | some key =>
        if key.sequence ≤ sequence then
          match key.type with
          | .deletion => findNextUserEntry fuel true
              { it with savedKey := key.userKey, iter := C.next it.iter }
          | .value =>
            if skipping && decide (key.userKey ≤ it.savedKey) then
              findNextUserEntry fuel skipping { it with iter := C.next it.iter }
            else { it with valid := true, savedKey := [] }
        else findNextUserEntry fuel skipping { it with iter := C.next it.iter }

/-- `find_prev_user_entry` (lines 194–235): the loop, with the type of the candidate. -/
def findPrevLoop : (fuel : ℕ) → ValueType → DBIter σ → ValueType × DBIter σ × Bool
  | 0, type, it => (type, it, true)
  | fuel + 1, type, it =>
    match C.current it.iter with
    | none => (type, it, true)
    | some e =>
      match parseInternalKey e.key with
      | none =>
        (type, { it with
          valid := false
          status := .corruption "malformed internal key in a table"
          savedKey := []
          savedValue := [] }, false)
      | some key =>
        if key.sequence ≤ sequence then
          if type ≠ .deletion ∧ key.userKey < it.savedKey then (type, it, true)
          else
            match key.type with
            | .deletion => findPrevLoop fuel .deletion
                { it with savedKey := [], savedValue := [], iter := C.prev it.iter }
            | .value => findPrevLoop fuel .value
                { it with savedKey := key.userKey, savedValue := e.value, iter := C.prev it.iter }
        else findPrevLoop fuel type { it with iter := C.prev it.iter }

/-- `find_prev_user_entry` (lines 194–235). -/
def findPrevUserEntry (fuel : ℕ) (it : DBIter σ) : DBIter σ :=
  match findPrevLoop C sequence fuel .deletion it with
  | (_, it, false) => it
  | (.deletion, it, true) =>
    { it with valid := false, savedKey := [], savedValue := [], direction := .forward }
  | (.value, it, true) => { it with valid := true }

/-- `seek_to_first` (lines 270–279). -/
def seekToFirst (fuel : ℕ) (it : DBIter σ) : DBIter σ :=
  let it := { it with
    direction := .forward, savedValue := [], iter := C.seekToFirst it.iter }
  if (C.current it.iter).isSome then findNextUserEntry C sequence fuel false it
  else { it with valid := false }

/-- `seek` (lines 258–268). -/
def seek (fuel : ℕ) (target : Bytes) (it : DBIter σ) : DBIter σ :=
  let lookup := makeLookupKey target sequence
  let it := { it with
    direction := .forward, savedValue := [], savedKey := lookup.toBytes
    iter := C.seek lookup it.iter }
  if (C.current it.iter).isSome then findNextUserEntry C sequence fuel false it
  else { it with valid := false }

/-- `seek_to_last` (lines 281–286). -/
def seekToLast (fuel : ℕ) (it : DBIter σ) : DBIter σ :=
  findPrevUserEntry C sequence fuel
    { it with direction := .reverse, savedValue := [], iter := C.seekToLast it.iter }

/-- `next` (lines 82–115). -/
def next (fuel : ℕ) (it : DBIter σ) : DBIter σ :=
  let it := match it.direction with
    | .reverse =>
      let iter := if (C.current it.iter).isSome then C.next it.iter else C.seekToFirst it.iter
      { it with direction := .forward, iter := iter }
    | .forward =>
      { it with
        savedKey := ((C.current it.iter).map (·.userKey)).getD [], iter := C.next it.iter }
  if (C.current it.iter).isSome then findNextUserEntry C sequence fuel true it
  else { it with valid := false, savedKey := [] }

/-- The loop of `prev` (lines 169–182): back to the last entry of a smaller key. -/
def stepBefore : (fuel : ℕ) → DBIter σ → Bool × DBIter σ
  | 0, it => (false, it)
  | fuel + 1, it =>
    let it := { it with iter := C.prev it.iter }
    match C.current it.iter with
    | none => (false, { it with valid := false, savedKey := [], savedValue := [] })
    | some e => if e.userKey < it.savedKey then (true, it) else stepBefore fuel it

/-- `prev` (lines 160–187). -/
def prev (fuel : ℕ) (it : DBIter σ) : DBIter σ :=
  match it.direction with
  | .reverse => findPrevUserEntry C sequence fuel it
  | .forward =>
    match stepBefore C fuel
      { it with savedKey := ((C.current it.iter).map (·.userKey)).getD [] } with
    | (false, it) => it
    | (true, it) => findPrevUserEntry C sequence fuel { it with direction := .reverse }

end

end DBIter

/-! ## The collapse rule -/

/-- What a forward walk over the entries shows, where `skip` is the user key already
    decided. -/
def visible (sequence : ℕ) : (skip : Option Bytes) → List Entry → List (Bytes × Bytes)
  | _, [] => []
  | skip, e :: es =>
    if e.sequence ≤ sequence then
      match e.shown with
      | none => visible sequence (some e.userKey) es
      | some value =>
        if skip.any fun u => decide (e.userKey ≤ u) then visible sequence skip es
        else (e.userKey, value) :: visible sequence (some e.userKey) es
    else visible sequence skip es

/-- The first entry of a sorted list decides its user key. -/
theorem shows_cons_iff {e : Entry} {es : List Entry} (hs : Entry.Sorted (e :: es))
    {s : ℕ} {u v : Bytes} :
    Entry.versioning.Shows {x | x ∈ e :: es} u s v ↔
      if e.userKey = u ∧ e.sequence ≤ s then e.shown = some v
      else Entry.versioning.Shows {x | x ∈ es} u s v := by
  have hset : {x | x ∈ e :: es} = insert e {x | x ∈ es} := by
    ext x
    simp
  rw [hset]
  split_ifs with h
  · exact Lib.Versioning.shows_insert_of_seen
      (fun x hx _ => (List.pairwise_cons.mp hs).1 x hx) h.1 h.2
  · refine Lib.Versioning.shows_insert_of_unseen fun hu => ?_
    by_contra hn
    exact h ⟨hu, not_lt.mp hn⟩

theorem exists_of_shows {es : List Entry} {s : ℕ} {u v : Bytes}
    (h : Entry.versioning.Shows {x | x ∈ es} u s v) : ∃ e ∈ es, e.userKey = u := by
  obtain ⟨e, he, -⟩ := h
  exact ⟨e, he.1, he.2.1⟩

/-- The walk shows what a reader sees of the keys past the one decided. -/
theorem mem_visible {s : ℕ} {es : List Entry} :
    ∀ {skip : Option Bytes}, Entry.Sorted es → (∀ e ∈ es, ∀ u ∈ skip, u ≤ e.userKey) →
      ∀ k v, (k, v) ∈ visible s skip es ↔
        (∀ u ∈ skip, u < k) ∧ Entry.versioning.Shows {x | x ∈ es} k s v := by
  induction es with
  | nil =>
    intro skip _ _ k v
    refine ⟨fun h => absurd h List.not_mem_nil, fun h => ?_⟩
    obtain ⟨e, he, -⟩ := exists_of_shows h.2
    exact absurd he List.not_mem_nil
  | cons e es ih =>
    intro skip hs hskip k v
    obtain ⟨he, hes⟩ := List.pairwise_cons.mp hs
    have hge : ∀ x ∈ es, e.userKey ≤ x.userKey := fun x hx =>
      InternalKey.userKey_le_of_lt (he x hx)
    have ihskip := ih hes (fun x hx => hskip x (List.mem_cons_of_mem _ hx)) k v
    have ihe := @ih (some e.userKey) hes (fun x hx u hu => (Option.some.inj hu) ▸ hge x hx) k v
    -- past the key of `e`, what is shown comes after every key decided before
    have hpast : e.userKey ≠ k → Entry.versioning.Shows {x | x ∈ es} k s v →
        e.userKey < k ∧ ∀ u ∈ skip, u < k := by
      intro hne hsh
      obtain ⟨x, hx, hxk⟩ := exists_of_shows hsh
      have hlt : e.userKey < k := lt_of_le_of_ne (hxk ▸ hge x hx) hne
      exact ⟨hlt, fun u hu => (hskip e (by simp) u hu).trans_lt hlt⟩
    rw [shows_cons_iff hs, visible]
    by_cases hseq : e.sequence ≤ s
    · rw [if_pos hseq]
      cases hsh : e.shown with
      | none =>
        dsimp only
        rw [ihe]
        simp only [Option.mem_some_iff, forall_eq', hseq, and_true]
        by_cases hk : e.userKey = k
        · simp [hk]
        · rw [if_neg hk]
          exact ⟨fun h => ⟨(hpast hk h.2).2, h.2⟩, fun h => ⟨(hpast hk h.2).1, h.2⟩⟩
      | some value =>
        dsimp only
        by_cases hhid : (skip.any fun u => decide (e.userKey ≤ u)) = true
        · rw [if_pos hhid, ihskip]
          obtain ⟨u, hu, hle⟩ := (Option.any_eq_true _ _).mp hhid
          have hueq : u = e.userKey := le_antisymm (hskip e (by simp) u hu) (by simpa using hle)
          refine and_congr_right fun hlt => ?_
          have hk : e.userKey ≠ k := fun heq => lt_irrefl _ ((hueq.trans heq) ▸ hlt u hu)
          rw [if_neg fun h => hk h.1]
        · rw [if_neg hhid, List.mem_cons, ihe, Prod.mk.injEq]
          simp only [Option.mem_some_iff, forall_eq', hseq, and_true]
          have hnothid : ∀ u ∈ skip, u < e.userKey := by
            intro u hu
            by_contra hn
            exact hhid ((Option.any_eq_true _ _).mpr ⟨u, hu, by simpa using not_lt.mp hn⟩)
          by_cases hk : e.userKey = k
          · subst hk
            simp only [true_and, lt_irrefl, false_and, or_false, if_true, Option.some.injEq]
            exact ⟨fun h => ⟨hnothid, h.symm⟩, fun h => h.2.symm⟩
          · rw [if_neg hk]
            have hk' : ¬ k = e.userKey := fun h => hk h.symm
            simp only [hk', false_and, false_or]
            exact ⟨fun h => ⟨(hpast hk h.2).2, h.2⟩, fun h => ⟨(hpast hk h.2).1, h.2⟩⟩
    · rw [if_neg hseq, if_neg fun h => hseq h.2, ihskip]

/-- The keys shown increase. -/
theorem visible_sorted {s : ℕ} {es : List Entry} :
    ∀ {skip : Option Bytes}, Entry.Sorted es → (∀ e ∈ es, ∀ u ∈ skip, u ≤ e.userKey) →
      (visible s skip es).Pairwise fun a b => a.1 < b.1 := by
  induction es with
  | nil => exact fun _ _ => List.Pairwise.nil
  | cons e es ih =>
    intro skip hs hskip
    obtain ⟨he, hes⟩ := List.pairwise_cons.mp hs
    have hge : ∀ x ∈ es, ∀ u ∈ some e.userKey, u ≤ x.userKey := fun x hx u hu =>
      (Option.some.inj hu) ▸ InternalKey.userKey_le_of_lt (he x hx)
    have ihskip := ih hes fun x hx => hskip x (List.mem_cons_of_mem _ hx)
    rw [visible]
    by_cases hseq : e.sequence ≤ s
    · rw [if_pos hseq]
      cases e.shown with
      | none => exact ih hes hge
      | some value =>
        dsimp only
        split_ifs with hhid
        · exact ihskip
        · refine List.pairwise_cons.mpr ⟨fun p hp => ?_, ih hes hge⟩
          exact ((mem_visible hes hge p.1 p.2).mp hp).1 e.userKey rfl
    · rw [if_neg hseq]
      exact ihskip

end Ambar
