import Ambar.Lib.Trace
import Mathlib.Data.Multiset.Count

/-!
# References to versions

A version counts its references (`src/version_set.cpp`, lines 161–204). `ref` and `unref`
are called with the mutex held; `release` drops a reference without it as long as the
count it sees is above one, and takes the mutex to drop what may be the last. A version is
unlinked and freed by whoever takes its count to zero. `append_version` (lines 604–615)
moves the set's own reference to the new version.

Every access to a count is a step of its own, and so is freeing a version. The references
that were taken and not yet dropped are kept beside the counts.

* `Inv.step`: what one step leaves true of counts and references.
* `Inv.reaches_zero`: who takes a count to zero.
* `versions_referenced`: in every state of every run the counts are right, a version
  is freed once, when nobody refers to it, and the set's list has every version in use.
-/

namespace Ambar

namespace VersionRefs

variable {T : Type*} [DecidableEq T]

/-- Whose reference it is: a holder's, or the set's own for its current version. -/
inductive Owner (T : Type*) where
  | holder (t : T)
  | current
deriving DecidableEq

/-- Where the code that holds the mutex stands: between calls; about to free a version
    that lost its last reference, in `append_version` or not; in `append_version` after
    the old version was dropped. -/
inductive Critical where
  | open
  | freeing (v : ℕ) (appending : Bool)
  | appending
deriving DecidableEq, Repr

/-- Where a holder stands in `release`: the version it drops and the count it saw last. -/
inductive Place where
  | outside
  | trying (v : ℕ) (count : ℤ)
deriving DecidableEq, Repr

/-- The versions made so far are those below `next`. -/
structure State (T : Type*) where
  mutex : Option (T × Critical)
  refs : ℕ → ℤ
  /-- The list between `dummy_versions_.next_` and `dummy_versions_`. -/
  linked : List ℕ
  files : ℕ → List ℕ
  current : Option ℕ
  next : ℕ
  place : T → Place
  /-- The references taken and not dropped. -/
  taken : Multiset (Owner T × ℕ)
  /-- How often a version was freed. -/
  freed : ℕ → ℕ

/-- A version set before its first version. -/
def State.init : State T where
  mutex := none
  refs := fun _ => 0
  linked := []
  files := fun _ => []
  current := none
  next := 0
  place := fun _ => .outside
  taken := 0
  freed := fun _ => 0

/-- One atomic access, or taking or leaving the mutex. -/
inductive Action (T : Type*) where
  | lock (t : T)
  | unlock (t : T)
  | ref (t : T) (v : ℕ)
  | unref (t : T) (v : ℕ)
  | free (t : T)
  | load (t : T) (v : ℕ)
  | exchange (t : T) (spurious : Bool)
  | dropCurrent (t : T)
  | setCurrent (t : T) (files : List ℕ)

namespace State

variable (s : State T)

/-- `refs_.fetch_sub(1)` with a reference that is then dropped (line 178). -/
def subtract (owner : Owner T) (v : ℕ) : State T :=
  { s with
    refs := Function.update s.refs v (s.refs v - 1)
    taken := s.taken.erase (owner, v) }

/-- `add_live_files` (lines 775–783). -/
def addLiveFiles : List ℕ := s.linked.flatMap s.files

/-- The holder may call `unref` on this version: it has a reference to drop, or it is in
    `release` and the count it saw was not above one (lines 196–203). -/
def mayUnref (t : T) (v : ℕ) : Bool :=
  match s.place t with
  | .outside => decide ((Owner.holder t, v) ∈ s.taken)
  | .trying w count => decide (w = v ∧ count ≤ 1)

/-- One step. -/
def step : Action T → Option (State T)
  | .lock t =>
    match s.mutex, s.place t with
    | none, .outside => some { s with mutex := some (t, .open) }
    -- the loop of `release` ends at a count of one
    | none, .trying _ count => if count ≤ 1 then some { s with mutex := some (t, .open) } else none
    | some _, _ => none
  | .unlock t =>
    if s.mutex = some (t, .open) ∧ s.place t = .outside then some { s with mutex := none } else none
  | .ref t v =>
    if s.mutex = some (t, .open) ∧ s.place t = .outside ∧ v ∈ s.linked then
      some { s with
        refs := Function.update s.refs v (s.refs v + 1)
        taken := (.holder t, v) ::ₘ s.taken }
    else none
  | .unref t v =>
    if s.mutex = some (t, .open) ∧ s.mayUnref t v then
      some { s.subtract (.holder t) v with
        place := Function.update s.place t .outside
        mutex := some (t, if s.refs v = 1 then .freeing v false else .open) }
    else none
  | .free t =>
    match s.mutex with
    | some (u, .freeing v appending) =>
      if u = t then
        some { s with
          linked := s.linked.erase v
          freed := Function.update s.freed v (s.freed v + 1)
          mutex := some (t, if appending then .appending else .open) }
      else none
    | _ => none
  | .load t v =>
    if s.place t = .outside ∧ s.mutex.map Prod.fst ≠ some t ∧ (Owner.holder t, v) ∈ s.taken then
      some { s with place := Function.update s.place t (.trying v (s.refs v)) }
    else none
  | .exchange t spurious =>
    match s.place t with
    | .outside => none
    | .trying v count =>
      if 1 < count then
        if s.refs v = count ∧ spurious = false then
          some { s.subtract (.holder t) v with place := Function.update s.place t .outside }
        else some { s with place := Function.update s.place t (.trying v (s.refs v)) }
      else none
  | .dropCurrent t =>
    if s.mutex = some (t, .open) ∧ s.place t = .outside then
      match s.current with
      | none => some { s with mutex := some (t, .appending) }
      | some v =>
        some { s.subtract .current v with
          current := none
          mutex := some (t, if s.refs v = 1 then .freeing v true else .appending) }
    else none
  | .setCurrent t files =>
    if s.mutex = some (t, .appending) then
      some { s with
        refs := Function.update s.refs s.next (s.refs s.next + 1)
        taken := (.current, s.next) ::ₘ s.taken
        linked := s.linked ++ [s.next]
        files := Function.update s.files s.next files
        current := some s.next
        next := s.next + 1
        mutex := some (t, .open) }
    else none

end State

/-! ## Counts and references -/

/-- The references to a version that were taken and not dropped. -/
def State.holds (s : State T) (v : ℕ) : ℕ := (s.taken.map Prod.snd).count v

/-- What holds in every state. -/
structure Inv (s : State T) : Prop where
  counted : ∀ v, s.refs v = s.holds v
  linked_iff : ∀ v, v ∈ s.linked ↔ v < s.next ∧ s.freed v = 0
  nodup : s.linked.Nodup
  freed_le : ∀ v, s.freed v ≤ 1
  unmade : ∀ v, s.next ≤ v → s.freed v = 0
  taken_linked : ∀ o v, (o, v) ∈ s.taken → v ∈ s.linked
  current : ∀ v, s.taken.count (.current, v) = if s.current = some v then 1 else 0
  trying : ∀ t v count, s.place t = .trying v count → (.holder t, v) ∈ s.taken ∧ 1 ≤ count
  zero : ∀ v ∈ s.linked, s.refs v = 0 → ∃ t appending, s.mutex = some (t, .freeing v appending)
  freeing : ∀ t v appending, s.mutex = some (t, .freeing v appending) → v ∈ s.linked ∧ s.refs v = 0
  dropped : ∀ t, s.mutex = some (t, .appending) ∨ (∃ v, s.mutex = some (t, .freeing v true)) →
    s.current = none

theorem inv_init : Inv (State.init : State T) where
  counted := fun _ => rfl
  linked_iff := fun v => by simp [State.init]
  nodup := List.nodup_nil
  freed_le := fun _ => Nat.zero_le _
  unmade := fun _ _ => rfl
  taken_linked := fun o v h => absurd h (Multiset.notMem_zero _)
  current := fun _ => rfl
  trying := fun t v count h => nomatch h
  zero := fun v h => absurd h List.not_mem_nil
  freeing := fun t v a h => nomatch h
  dropped := fun t h => rfl

section

variable {s : State T}

omit [DecidableEq T] in
theorem holds_pos {o : Owner T} {v : ℕ} (h : (o, v) ∈ s.taken) : 1 ≤ s.holds v :=
  Multiset.one_le_count_iff_mem.mpr (Multiset.mem_map_of_mem Prod.snd h)

omit [DecidableEq T] in
theorem exists_taken {v : ℕ} (h : s.holds v ≠ 0) : ∃ o, (o, v) ∈ s.taken := by
  obtain ⟨⟨o, w⟩, hmem, rfl⟩ := Multiset.mem_map.mp (Multiset.count_ne_zero.mp h)
  exact ⟨o, hmem⟩

theorem holds_subtract {o : Owner T} {v : ℕ} (h : (o, v) ∈ s.taken) (w : ℕ) :
    ((s.subtract o v).holds w : ℤ) = if w = v then (s.holds v : ℤ) - 1 else s.holds w := by
  have hpos := holds_pos h
  unfold State.holds State.subtract at *
  rw [Multiset.map_erase_of_mem _ _ h]
  split_ifs with hw
  · subst hw
    rw [Multiset.count_erase_self]
    omega
  · rw [Multiset.count_erase_of_ne hw]

omit [DecidableEq T] in
theorem holds_cons (o : Owner T) (v w : ℕ) :
    Multiset.count w (((o, v) ::ₘ s.taken).map Prod.snd) = if w = v then s.holds v + 1 else s.holds w := by
  rw [Multiset.map_cons, Multiset.count_cons]
  unfold State.holds
  split_ifs with h
  · rw [h]
  · rfl

namespace Inv

variable (h : Inv s)

include h

theorem refs_pos {o : Owner T} {v : ℕ} (hmem : (o, v) ∈ s.taken) : 1 ≤ s.refs v := by
  have := holds_pos hmem
  have := h.counted v
  omega

theorem counted_subtract {o : Owner T} {v : ℕ} (hmem : (o, v) ∈ s.taken) (w : ℕ) :
    (s.subtract o v).refs w = (s.subtract o v).holds w := by
  rw [holds_subtract hmem]
  unfold State.subtract
  simp only [Function.update_apply, h.counted]

theorem counted_cons (o : Owner T) (v w : ℕ) :
    Function.update s.refs v (s.refs v + 1) w =
      (Multiset.count w (((o, v) ::ₘ s.taken).map Prod.snd) : ℕ) := by
  rw [holds_cons, Function.update_apply]
  split_ifs
  · rw [h.counted]
    push_cast
    rfl
  · exact h.counted w

/-- Between calls, and without the mutex, no version in the list has lost its references. -/
theorem refs_ne_zero (hmutex : ∀ t v a, s.mutex ≠ some (t, .freeing v a)) {v : ℕ}
    (hv : v ∈ s.linked) : s.refs v ≠ 0 := fun hz =>
  have ⟨t, a, heq⟩ := h.zero v hv hz
  hmutex t v a heq

theorem mayUnref {t : T} {v : ℕ} (hmay : s.mayUnref t v = true) : (Owner.holder t, v) ∈ s.taken := by
  unfold State.mayUnref at hmay
  cases hplace : s.place t with
  | outside =>
    rw [hplace] at hmay
    exact of_decide_eq_true hmay
  | trying w count =>
    rw [hplace] at hmay
    obtain ⟨rfl, -⟩ := of_decide_eq_true hmay
    exact (h.trying t w count hplace).1

/-- A reference is dropped; what is left to say is where the mutex stands after it. -/
theorem drop {o : Owner T} {v : ℕ} (hmem : (o, v) ∈ s.taken) {place : T → Place} {current : Option ℕ}
    {mutex : Option (T × Critical)}
    (hcurrent : ∀ w, (s.taken.erase (o, v)).count (.current, w) = if current = some w then 1 else 0)
    (htrying : ∀ t w count, place t = .trying w count →
      s.place t = .trying w count ∧ (Owner.holder t, w) ≠ (o, v))
    (hzero : ∀ w ∈ s.linked, (s.subtract o v).refs w = 0 → ∃ t a, mutex = some (t, .freeing w a))
    (hfreeing : ∀ t w a, mutex = some (t, .freeing w a) → w ∈ s.linked ∧ (s.subtract o v).refs w = 0)
    (hdropped : ∀ t, mutex = some (t, .appending) ∨ (∃ w, mutex = some (t, .freeing w true)) →
      current = none) :
    Inv { s.subtract o v with place := place, current := current, mutex := mutex } where
  counted := h.counted_subtract hmem
  linked_iff := h.linked_iff
  nodup := h.nodup
  freed_le := h.freed_le
  unmade := h.unmade
  taken_linked := fun o' w hw => h.taken_linked o' w (Multiset.mem_of_mem_erase hw)
  current := hcurrent
  trying := fun t w count hplace =>
    have ⟨hold, hne⟩ := htrying t w count hplace
    have ⟨hmem', hle⟩ := h.trying t w count hold
    ⟨(Multiset.mem_erase_of_ne hne).mpr hmem', hle⟩
  zero := hzero
  freeing := hfreeing
  dropped := hdropped

theorem erase_holder (t : T) (v w : ℕ) :
    (s.taken.erase (.holder t, v)).count (.current, w) = if s.current = some w then 1 else 0 := by
  rw [Multiset.count_erase_of_ne (by simp), h.current]

omit h in
theorem trying_outside {t : T} {v : ℕ} :
    ∀ t' w count, Function.update s.place t .outside t' = .trying w count →
      s.place t' = .trying w count ∧ (Owner.holder t', w) ≠ (Owner.holder t, v) := by
  intro t' w count hplace
  rw [Function.update_apply] at hplace
  split_ifs at hplace with ht
  exact ⟨hplace, fun heq => ht (Owner.holder.inj (Prod.mk.inj heq).1)⟩

/-- The count of a version that loses a reference with the mutex held: if it was the last,
    the version is freed next. -/
theorem drop_locked {o : Owner T} {v : ℕ} (hmem : (o, v) ∈ s.taken)
    (hmutex : ∀ t v a, s.mutex ≠ some (t, .freeing v a)) (t : T) (appending : Bool) (rest : Critical)
    (hrest : ∀ w a, rest ≠ .freeing w a) :
    (∀ w ∈ s.linked, (s.subtract o v).refs w = 0 →
      ∃ u a, some (t, if s.refs v = 1 then .freeing v appending else rest) = some (u, .freeing w a)) ∧
    ∀ u w a, some (t, if s.refs v = 1 then .freeing v appending else rest) = some (u, .freeing w a) →
      w ∈ s.linked ∧ (s.subtract o v).refs w = 0 := by
  have hrefs : ∀ w, (s.subtract o v).refs w = if w = v then s.refs v - 1 else s.refs w := fun w =>
    Function.update_apply ..
  constructor
  · intro w hw hz
    rw [hrefs] at hz
    split_ifs at hz with heq
    · subst heq
      exact ⟨t, appending, by rw [if_pos (by omega)]⟩
    · exact absurd hz (h.refs_ne_zero hmutex hw)
  · intro u w a heq
    obtain ⟨-, heq⟩ := Prod.mk.inj (Option.some.inj heq)
    split_ifs at heq with hone
    · obtain ⟨rfl, -⟩ := Critical.freeing.inj heq
      exact ⟨h.taken_linked o v hmem, by rw [hrefs, if_pos rfl]; omega⟩
    · exact absurd heq (hrest w a)

theorem step_unref {t : T} {v : ℕ} {s' : State T} (hstep : s.step (.unref t v) = some s') : Inv s' := by
  obtain ⟨hguard, rfl⟩ : _ ∧ _ := by
    simpa only [State.step, Option.ite_none_right_eq_some, Option.some.injEq] using hstep
  have hmem := h.mayUnref hguard.2
  obtain ⟨hzero, hfreeing⟩ := h.drop_locked hmem (by rw [hguard.1]; simp) t false
    .open (fun w a heq => nomatch heq)
  refine h.drop hmem (h.erase_holder t v) trying_outside hzero hfreeing fun u hu => ?_
  rcases hu with heq | ⟨w, heq⟩
  · split_ifs at heq <;> simp at heq
  · split_ifs at heq <;> simp at heq

theorem step_exchange {t : T} {spurious : Bool} {s' : State T}
    (hstep : s.step (.exchange t spurious) = some s') : Inv s' := by
  unfold State.step at hstep
  simp only at hstep
  cases hplace : s.place t with
  | outside => simp [hplace] at hstep
  | trying v count =>
    simp only [hplace] at hstep
    obtain ⟨hmem, -⟩ := h.trying t v count hplace
    split_ifs at hstep with hmore hequal
    · -- the count stays above zero, so no version is lost without the mutex
      obtain rfl := Option.some.inj hstep
      have hrefs : ∀ w, (s.subtract (.holder t) v).refs w = if w = v then s.refs v - 1 else s.refs w :=
        fun w => Function.update_apply ..
      refine h.drop hmem (h.erase_holder t v) trying_outside (fun w hw hz => ?_)
        (fun u w a hmutex => ?_) h.dropped
      · rw [hrefs] at hz
        split_ifs at hz
        · omega
        · exact h.zero w hw hz
      · obtain ⟨hw, hz⟩ := h.freeing u w a hmutex
        refine ⟨hw, ?_⟩
        rw [hrefs, if_neg (fun heq => by subst heq; omega), hz]
    · obtain rfl := Option.some.inj hstep
      exact { h with
        trying := fun t' w c hplace' => by
          simp only [Function.update_apply] at hplace'
          split_ifs at hplace' with ht
          · obtain ⟨rfl, rfl⟩ := Place.trying.inj hplace'
            subst ht
            exact ⟨hmem, h.refs_pos hmem⟩
          · exact h.trying t' w c hplace' }

theorem step_load {t : T} {v : ℕ} {s' : State T} (hstep : s.step (.load t v) = some s') : Inv s' := by
  obtain ⟨hguard, rfl⟩ : _ ∧ _ := by
    simpa only [State.step, Option.ite_none_right_eq_some, Option.some.injEq] using hstep
  exact { h with
    trying := fun t' w c hplace' => by
      simp only [Function.update_apply] at hplace'
      split_ifs at hplace' with ht
      · obtain ⟨rfl, rfl⟩ := Place.trying.inj hplace'
        subst ht
        exact ⟨hguard.2.2, h.refs_pos hguard.2.2⟩
      · exact h.trying t' w c hplace' }

theorem step_dropCurrent {t : T} {s' : State T} (hstep : s.step (.dropCurrent t) = some s') : Inv s' := by
  simp only [State.step, Option.ite_none_right_eq_some] at hstep
  obtain ⟨hguard, hstep⟩ := hstep
  have hmutex : ∀ t v a, s.mutex ≠ some (t, .freeing v a) := by
    rw [hguard.1]
    simp
  cases hcur : s.current with
  | none =>
    rw [hcur] at hstep
    obtain rfl := Option.some.inj hstep
    exact { h with
      current := fun w => by rw [h.current, hcur]
      zero := fun w hw hz => absurd hz (h.refs_ne_zero hmutex hw)
      freeing := fun u w a heq => nomatch heq
      dropped := fun _ _ => rfl }
  | some v =>
    rw [hcur] at hstep
    obtain rfl := Option.some.inj hstep
    have hone : s.taken.count (.current, v) = 1 := by rw [h.current, hcur, if_pos rfl]
    have hmem : (Owner.current, v) ∈ s.taken := Multiset.one_le_count_iff_mem.mp hone.ge
    obtain ⟨hzero, hfreeing⟩ := h.drop_locked hmem hmutex t true
      .appending (fun w a heq => nomatch heq)
    refine h.drop hmem (fun w => ?_) (fun t' w count hplace => ⟨hplace, fun heq => nomatch heq⟩)
      hzero hfreeing fun _ _ => rfl
    by_cases hw : w = v
    · subst hw
      rw [Multiset.count_erase_self, hone]
      rfl
    · rw [Multiset.count_erase_of_ne (fun heq => hw (Prod.mk.inj heq).2), h.current, hcur,
        if_neg (fun heq => hw (Option.some.inj heq).symm)]
      rfl

theorem step_free {t : T} {s' : State T} (hstep : s.step (.free t) = some s') : Inv s' := by
  unfold State.step at hstep
  simp only at hstep
  split at hstep
  · rename_i u v appending hmutex
    simp only [Option.ite_none_right_eq_some, Option.some.injEq] at hstep
    obtain ⟨hut, rfl⟩ := hstep
    obtain ⟨hv, hz⟩ := h.freeing u v appending hmutex
    have hnone : ∀ o, (o, v) ∉ s.taken := fun o hmem => by
      have := h.refs_pos hmem
      omega
    have hlinked : ∀ w, w ∈ s.linked.erase v ↔ w ≠ v ∧ w ∈ s.linked := fun w => h.nodup.mem_erase_iff
    have hfreed : s.freed v = 0 := ((h.linked_iff v).mp hv).2
    have hlt : v < s.next := ((h.linked_iff v).mp hv).1
    exact {
      counted := h.counted
      linked_iff := fun w => by
        simp only [hlinked, h.linked_iff, Function.update_apply]
        split_ifs with hw
        · simp [hw]
        · simp [hw]
      nodup := h.nodup.erase v
      freed_le := fun w => by
        simp only [Function.update_apply]
        split_ifs with hw
        · omega
        · exact h.freed_le w
      unmade := fun w hw => by
        simp only at hw ⊢
        rw [Function.update_of_ne (by omega)]
        exact h.unmade w hw
      taken_linked := fun o w hw => (hlinked w).mpr
        ⟨fun heq => hnone o (heq ▸ hw), h.taken_linked o w hw⟩
      current := h.current
      trying := h.trying
      zero := fun w hw hzw => by
        obtain ⟨hne, hw⟩ := (hlinked w).mp hw
        obtain ⟨u', a, heq⟩ := h.zero w hw hzw
        rw [hmutex] at heq
        exact absurd (Critical.freeing.inj (Prod.mk.inj (Option.some.inj heq)).2).1.symm hne
      freeing := fun u' w a heq => by
        obtain ⟨-, heq⟩ := Prod.mk.inj (Option.some.inj heq)
        split_ifs at heq
      dropped := fun u' hu => by
        cases appending with
        | true => exact h.dropped u (.inr ⟨v, hmutex⟩)
        | false => simp at hu }
  · cases hstep

theorem step_ref {t : T} {v : ℕ} {s' : State T} (hstep : s.step (.ref t v) = some s') : Inv s' := by
  obtain ⟨hguard, rfl⟩ : _ ∧ _ := by
    simpa only [State.step, Option.ite_none_right_eq_some, Option.some.injEq] using hstep
  obtain ⟨hmutex, -, hv⟩ := hguard
  have hno : ∀ t v a, s.mutex ≠ some (t, .freeing v a) := by
    rw [hmutex]
    simp
  exact { h with
    counted := fun w => h.counted_cons (.holder t) v w
    taken_linked := fun o w hw => by
      rcases Multiset.mem_cons.mp hw with heq | hw
      · obtain ⟨-, rfl⟩ := Prod.mk.inj heq
        exact hv
      · exact h.taken_linked o w hw
    current := fun w => by
      show Multiset.count _ (_ ::ₘ s.taken) = _
      rw [Multiset.count_cons_of_ne (by simp), h.current]
    trying := fun t' w count hplace =>
      have ⟨hmem, hle⟩ := h.trying t' w count hplace
      ⟨Multiset.mem_cons_of_mem hmem, hle⟩
    zero := fun w hw hz => by
      have hw' := h.refs_ne_zero hno hw
      have hpos := (h.counted w).symm ▸ Int.natCast_nonneg (s.holds w)
      simp only [Function.update_apply] at hz
      split_ifs at hz with heq
      · subst heq
        omega
      · exact absurd hz hw'
    freeing := fun u w a heq => absurd heq (hno u w a)
    dropped := h.dropped }

theorem step_setCurrent {t : T} {files : List ℕ} {s' : State T}
    (hstep : s.step (.setCurrent t files) = some s') : Inv s' := by
  obtain ⟨hmutex, rfl⟩ : _ ∧ _ := by
    simpa only [State.step, Option.ite_none_right_eq_some, Option.some.injEq] using hstep
  have hno : ∀ t v a, s.mutex ≠ some (t, .freeing v a) := by
    rw [hmutex]
    simp
  have hnew : s.next ∉ s.linked := fun hmem => (((h.linked_iff _).mp hmem).1).false
  have hnone : s.current = none := h.dropped t (.inl hmutex)
  have hzero : s.refs s.next = 0 := by
    by_contra hne
    obtain ⟨o, hmem⟩ := exists_taken (s := s) (v := s.next) fun hz => hne (by rw [h.counted, hz]; rfl)
    exact hnew (h.taken_linked o _ hmem)
  exact {
    counted := fun w => h.counted_cons .current s.next w
    linked_iff := fun w => by
      simp only [List.mem_append, List.mem_singleton, h.linked_iff]
      constructor
      · rintro (⟨hlt, hf⟩ | rfl)
        · exact ⟨by omega, hf⟩
        · exact ⟨Nat.lt_succ_self _, h.unmade _ le_rfl⟩
      · rintro ⟨hlt, hf⟩
        by_cases hw : w = s.next
        · exact .inr hw
        · exact .inl ⟨by omega, hf⟩
    nodup := h.nodup.append (List.nodup_singleton _) (List.disjoint_singleton.mpr hnew)
    freed_le := h.freed_le
    unmade := fun w hw => h.unmade w (Nat.le_of_succ_le hw)
    taken_linked := fun o w hw => by
      rcases Multiset.mem_cons.mp hw with heq | hw
      · obtain ⟨-, rfl⟩ := Prod.mk.inj heq
        exact List.mem_append_right _ (List.mem_singleton_self _)
      · exact List.mem_append_left _ (h.taken_linked o w hw)
    current := fun w => by
      show Multiset.count _ (_ ::ₘ s.taken) = _
      rw [Multiset.count_cons, h.current, hnone]
      simp [eq_comm]
    trying := fun t' w count hplace =>
      have ⟨hmem, hle⟩ := h.trying t' w count hplace
      ⟨Multiset.mem_cons_of_mem hmem, hle⟩
    zero := fun w hw hz => by
      simp only [Function.update_apply] at hz
      split_ifs at hz with heq
      · omega
      · rcases List.mem_append.mp hw with hw | hw
        · exact absurd hz (h.refs_ne_zero hno hw)
        · exact absurd (List.mem_singleton.mp hw) heq
    freeing := fun u w a heq => nomatch heq
    dropped := fun u hu => by simp at hu }

theorem step_mutex {m : Option (T × Critical)} (hno : ∀ t v a, s.mutex ≠ some (t, .freeing v a))
    (hm : ∀ t c, m = some (t, c) → c = .open) : Inv { s with mutex := m } :=
  { h with
    zero := fun w hw hz => absurd hz (h.refs_ne_zero hno hw)
    freeing := fun u w a heq => nomatch hm u _ heq
    dropped := fun u hu => by
      rcases hu with heq | ⟨w, heq⟩
      · exact nomatch hm u _ heq
      · exact nomatch hm u _ heq }

/-- **One step.** -/
theorem step {a : Action T} {s' : State T} (hstep : s.step a = some s') : Inv s' := by
  cases a with
  | lock t =>
    simp only [State.step] at hstep
    split at hstep
    · rename_i hmutex _
      obtain rfl := Option.some.inj hstep
      exact h.step_mutex (by rw [hmutex]; simp) (by simp)
    · rename_i hmutex _
      simp only [Option.ite_none_right_eq_some, Option.some.injEq] at hstep
      obtain ⟨-, rfl⟩ := hstep
      exact h.step_mutex (by rw [hmutex]; simp) (by simp)
    · cases hstep
  | unlock t =>
    simp only [State.step, Option.ite_none_right_eq_some, Option.some.injEq] at hstep
    obtain ⟨⟨hmutex, -⟩, rfl⟩ := hstep
    exact h.step_mutex (by rw [hmutex]; simp) (by simp)
  | ref t v => exact h.step_ref hstep
  | unref t v => exact h.step_unref hstep
  | free t => exact h.step_free hstep
  | load t v => exact h.step_load hstep
  | exchange t spurious => exact h.step_exchange hstep
  | dropCurrent t => exact h.step_dropCurrent hstep
  | setCurrent t files => exact h.step_setCurrent hstep

/-- A count that falls to zero does so with the mutex held, by the one that then frees the
    version. -/
theorem reaches_zero {a : Action T} {s' : State T} (hstep : s.step a = some s') {v : ℕ}
    (hpos : s.refs v ≠ 0) (hz : s'.refs v = 0) :
    ∃ t b, s.mutex = some (t, .open) ∧ s'.mutex = some (t, .freeing v b) := by
  have hnonneg : 0 ≤ s.refs v := by
    rw [h.counted]
    exact Int.natCast_nonneg _
  cases a with
  | lock t =>
    simp only [State.step] at hstep
    split at hstep
    · obtain rfl := Option.some.inj hstep
      exact absurd hz hpos
    · simp only [Option.ite_none_right_eq_some, Option.some.injEq] at hstep
      obtain ⟨-, rfl⟩ := hstep
      exact absurd hz hpos
    · cases hstep
  | unlock t =>
    simp only [State.step, Option.ite_none_right_eq_some, Option.some.injEq] at hstep
    obtain ⟨-, rfl⟩ := hstep
    exact absurd hz hpos
  | ref t w =>
    simp only [State.step, Option.ite_none_right_eq_some, Option.some.injEq] at hstep
    obtain ⟨-, rfl⟩ := hstep
    simp only [Function.update_apply] at hz
    split_ifs at hz with heq
    · subst heq
      omega
    · exact absurd hz hpos
  | unref t w =>
    simp only [State.step, Option.ite_none_right_eq_some, Option.some.injEq] at hstep
    obtain ⟨⟨hmutex, -⟩, rfl⟩ := hstep
    simp only [State.subtract, Function.update_apply] at hz
    split_ifs at hz with heq
    · subst heq
      exact ⟨t, false, hmutex, by simp only; rw [if_pos (by omega)]⟩
    · exact absurd hz hpos
  | free t =>
    simp only [State.step] at hstep
    split at hstep
    · simp only [Option.ite_none_right_eq_some, Option.some.injEq] at hstep
      obtain ⟨-, rfl⟩ := hstep
      exact absurd hz hpos
    · cases hstep
  | load t w =>
    simp only [State.step, Option.ite_none_right_eq_some, Option.some.injEq] at hstep
    obtain ⟨-, rfl⟩ := hstep
    exact absurd hz hpos
  | exchange t spurious =>
    simp only [State.step] at hstep
    split at hstep
    · cases hstep
    · rename_i w count _
      split_ifs at hstep with hmore hequal
      · obtain rfl := Option.some.inj hstep
        simp only [State.subtract, Function.update_apply] at hz
        split_ifs at hz with heq
        · subst heq
          omega
        · exact absurd hz hpos
      · obtain rfl := Option.some.inj hstep
        exact absurd hz hpos
  | dropCurrent t =>
    simp only [State.step, Option.ite_none_right_eq_some] at hstep
    obtain ⟨⟨hmutex, -⟩, hstep⟩ := hstep
    split at hstep
    · obtain rfl := Option.some.inj hstep
      exact absurd hz hpos
    · obtain rfl := Option.some.inj hstep
      simp only [State.subtract, Function.update_apply] at hz
      split_ifs at hz with heq
      · subst heq
        exact ⟨t, true, hmutex, by simp only; rw [if_pos (by omega)]⟩
      · exact absurd hz hpos
  | setCurrent t files =>
    simp only [State.step, Option.ite_none_right_eq_some, Option.some.injEq] at hstep
    obtain ⟨-, rfl⟩ := hstep
    simp only [Function.update_apply] at hz
    split_ifs at hz with heq
    · subst heq
      omega
    · exact absurd hz hpos

/-- A version someone refers to is in the list and was not freed. -/
theorem in_use {o : Owner T} {v : ℕ} (hmem : (o, v) ∈ s.taken) : v ∈ s.linked ∧ s.freed v = 0 :=
  have hv := h.taken_linked o v hmem
  ⟨hv, ((h.linked_iff v).mp hv).2⟩

theorem current_taken {v : ℕ} (hv : s.current = some v) : (Owner.current, v) ∈ s.taken :=
  Multiset.one_le_count_iff_mem.mp (by rw [h.current, if_pos hv])

/-- A version without references is freed before the mutex is let go. -/
theorem freed_eq_one {v : ℕ} (hv : v < s.next) (hnone : s.holds v = 0) (hmutex : s.mutex = none) :
    s.freed v = 1 := by
  by_contra hne
  have hzero : s.freed v = 0 := by
    have := h.freed_le v
    omega
  obtain ⟨t, b, heq⟩ := h.zero v ((h.linked_iff v).mpr ⟨hv, hzero⟩) (by rw [h.counted, hnone]; rfl)
  rw [hmutex] at heq
  cases heq

end Inv

end

theorem inv_run {as : List (Action T)} {s : State T} (hrun : Lib.run State.step State.init as = some s) :
    Inv s :=
  Lib.run_invariant State.step (fun _ _ _ h hstep => h.step hstep) inv_init hrun

/-- **References to versions**, in every state of every run: the count of a version is the
    number of references to it; it falls to zero only with the mutex held; a version is
    freed at most once, never while someone refers to it, and has been once nobody does
    and the mutex is free; the current version is not freed; a holder in `release` accesses
    a version that is there, and leaves its loop at a count of one; and the live files
    are those of every version someone may read. -/
theorem versions_referenced (as : List (Action T)) (s : State T)
    (hrun : Lib.run State.step State.init as = some s) :
    (∀ v, s.refs v = s.holds v) ∧
    (∀ a s' v, s.step a = some s' → s.refs v ≠ 0 → s'.refs v = 0 →
      ∃ t b, s.mutex = some (t, .open) ∧ s'.mutex = some (t, .freeing v b)) ∧
    (∀ v, s.freed v ≤ 1 ∧ (0 < s.freed v → s.holds v = 0)) ∧
    (∀ v < s.next, s.holds v = 0 → s.mutex = none → s.freed v = 1) ∧
    (∀ v, s.current = some v → v ∈ s.linked ∧ s.freed v = 0) ∧
    (∀ t v count, s.place t = .trying v count →
      v ∈ s.linked ∧ s.freed v = 0 ∧ (count ≤ 1 → count = 1)) ∧
    (∀ o v, (o, v) ∈ s.taken → ∀ f ∈ s.files v, f ∈ s.addLiveFiles) := by
  have h := inv_run hrun
  refine ⟨h.counted, fun a s' v hstep => h.reaches_zero hstep, fun v => ⟨h.freed_le v, fun hfreed => ?_⟩,
    fun v => h.freed_eq_one, fun v hv => h.in_use (h.current_taken hv), fun t v count hplace => ?_,
    fun o v hmem f hf => ?_⟩
  · by_contra hne
    obtain ⟨o, hmem⟩ := exists_taken hne
    have := (h.in_use hmem).2
    omega
  · obtain ⟨hmem, hle⟩ := h.trying t v count hplace
    exact ⟨(h.in_use hmem).1, (h.in_use hmem).2, fun hcount => le_antisymm hcount hle⟩
  · exact List.mem_flatMap.mpr ⟨v, (h.in_use hmem).1, hf⟩

/-- A reader sees a count of two, loses the race to a new version, retries, and drops the
    last reference with the mutex. -/
def lastReader : List (Action ℕ) :=
  [.lock 1, .dropCurrent 1, .setCurrent 1 [7], .unlock 1, .lock 0, .ref 0 0, .unlock 0, .load 0 0,
    .lock 1, .dropCurrent 1, .setCurrent 1 [8], .unlock 1, .exchange 0 false, .lock 0, .unref 0 0,
    .free 0, .unlock 0]

theorem versions_referenced_lastReader :
    ∃ s, Lib.run State.step State.init lastReader = some s ∧ s.refs 0 = 0 ∧ s.freed 0 = 1 := by
  have heval : (Lib.run State.step State.init lastReader).map
      (fun s => (s.next, s.mutex, s.refs 0, s.holds 0)) = some (2, none, 0, 0) := by decide +kernel
  obtain ⟨s, hs, heq⟩ := Option.map_eq_some_iff.mp heval
  obtain ⟨hnext, hmutex, hrefs, hholds⟩ : s.next = 2 ∧ s.mutex = none ∧ s.refs 0 = 0 ∧ s.holds 0 = 0 := by
    simpa using heq
  exact ⟨s, hs, hrefs, (versions_referenced lastReader s hs).2.2.2.1 0 (by omega) hholds hmutex⟩

end VersionRefs

end Ambar
