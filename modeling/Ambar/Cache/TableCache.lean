import Ambar.Lib.Association
import Ambar.Lib.Trace

/-!
# The cache of open tables

A shard of `TableCache` (`src/table_cache.cpp`, lines 59–162) has a map from file numbers to
entries and a list of the numbers, the most recently used in front. `find` looks a number up
with the lock held, opens the file without it, and takes the lock again to put the entry
into the map, where it may find that another thread was faster. The map owns its entries;
one that leaves the map with users left is owned by the last of them.

Each critical section is a step, and so is opening a file. How many users hold an entry and
how often it was destroyed are kept beside the shard.

* `Inv.leave`, `Inv.use`, `Inv.put`: what the parts of a critical section leave true.
* `Inv.evictIfOverCapacity`: the loop ends within the capacity and keeps the newest entry.
* `shard_owned`: in every state of every run the counts are right and an entry is destroyed
  once, when it is out of the map and nobody holds it.
-/

namespace Ambar

namespace TableCache

variable {T : Type*}

/-- `kShards`. -/
def kShards : ℕ := 16

/-- The share of the capacity a shard gets (constructor, lines 53–55). -/
def capacityOf (entries : ℤ) : ℕ :=
  ((if entries < 1 then 1 else entries.toNat) + kShards - 1) / kShards

theorem capacityOf_pos (entries : ℤ) : 1 ≤ capacityOf entries := by
  unfold capacityOf kShards
  split_ifs <;> omega

/-- Where a thread stands in `find`: outside it, about to open a file, or with an entry it
    opened and has not put into the map. -/
inductive Place where
  | outside
  | opening (number : ℕ)
  | opened (entry : ℕ)
deriving DecidableEq, Repr

/-- A node of the list: the file number it has, and the entry it was pushed for, which
    stands for the node's address. -/
abbrev Node := Sigma fun _ : ℕ => ℕ

/-- A shard. The entries made so far are those below `next`. -/
structure State (T : Type*) where
  /-- The map, from file numbers to entries. -/
  entries : AList fun _ : ℕ => ℕ
  lru : List Node
  fileNumber : ℕ → ℕ
  refs : ℕ → ℤ
  next : ℕ
  place : T → Place
  /-- How many users hold an entry. -/
  users : ℕ → ℕ
  /-- How often an entry was destroyed. -/
  destroyed : ℕ → ℕ

namespace State

def init : State T where
  entries := ∅
  lru := []
  fileNumber := fun _ => 0
  refs := fun _ => 0
  next := 0
  place := fun _ => .outside
  users := fun _ => 0
  destroyed := fun _ => 0

section

variable (s : State T)

/-- `shard.lru.splice(shard.lru.begin(), shard.lru, it->second.second)`. -/
def splice (e : ℕ) : List Node :=
  match s.lru.find? (·.2 = e) with
  | some node => node :: s.lru.erase node
  | none => s.lru

/-- An entry of the map gets one more user (lines 66–68, 98–100). -/
def use (e : ℕ) : State T :=
  { s with
    lru := s.splice e
    refs := Function.update s.refs e (s.refs e + 1)
    users := Function.update s.users e (s.users e + 1) }

/-- An entry leaves the map with the map's reference (lines 127–136, 156–161): it is
    destroyed with it, or left to its users. -/
def leave (number e : ℕ) : State T :=
  let refs := Function.update s.refs e (s.refs e - 1)
  if refs e = 0 then
    { s with
      refs := refs
      entries := s.entries.erase number
      destroyed := Function.update s.destroyed e (s.destroyed e + 1) }
  else { s with refs := refs, entries := s.entries.erase number }

/-- `evict_if_over_capacity` (lines 115–138). -/
def evictIfOverCapacity (capacity : ℕ) : ℕ → State T → State T
  | 0, s => s
  | fuel + 1, s =>
    if capacity < s.entries.keys.length then
      match s.lru.getLast? with
      | none => s
      | some victim =>
        let popped := { s with lru := s.lru.dropLast }
        match s.entries.lookup victim.1 with
        | none => evictIfOverCapacity capacity fuel popped
        | some e => evictIfOverCapacity capacity fuel (popped.leave victim.1 e)
    else s

/-- The entry a thread opened enters the map (lines 104–108). -/
def put (e : ℕ) : State T :=
  { s with
    refs := Function.update s.refs e 2
    lru := ⟨s.fileNumber e, e⟩ :: s.lru
    entries := s.entries.insert (s.fileNumber e) e
    users := Function.update s.users e (s.users e + 1) }

/-- `release` (lines 140–145). -/
def release (e : ℕ) : State T :=
  let refs := Function.update s.refs e (s.refs e - 1)
  let users := Function.update s.users e (s.users e - 1)
  if refs e = 0 then
    { s with
      refs := refs
      users := users
      destroyed := Function.update s.destroyed e (s.destroyed e + 1) }
  else { s with refs := refs, users := users }

/-- `evict` (lines 147–162). -/
def evict (number : ℕ) : State T :=
  match s.entries.lookup number with
  | none => s
  | some e => { s with lru := s.lru.eraseP (·.2 = e) }.leave number e

end

end State

/-- A critical section of a shard, or a file being opened. -/
inductive Action (T : Type*) where
  /-- The lookup of `find` (lines 62–71). -/
  | lookup (t : T) (number : ℕ)
  /-- The open of `find` (lines 77–91), which may fail. -/
  | openTable (t : T) (ok : Bool)
  /-- The insertion of `find` (lines 94–112). -/
  | insert (t : T)
  | release (e : ℕ)
  | evict (number : ℕ)

/-- One step of the shard. Only an entry with a user can be released. -/
def State.step [DecidableEq T] (capacity : ℕ) (s : State T) : Action T → Option (State T)
  | .lookup t number =>
    if s.place t = .outside then
      match s.entries.lookup number with
      | some e => some (s.use e)
      | none => some { s with place := Function.update s.place t (.opening number) }
    else none
  | .openTable t ok =>
    match s.place t with
    | .opening number =>
      if ok then
        some { s with
          fileNumber := Function.update s.fileNumber s.next number
          next := s.next + 1
          place := Function.update s.place t (.opened s.next) }
      else some { s with place := Function.update s.place t .outside }
    | _ => none
  | .insert t =>
    match s.place t with
    | .opened e =>
      let s := { s with place := Function.update s.place t .outside }
      match s.entries.lookup (s.fileNumber e) with
      | some winner =>
        -- the thread's own copy goes with the pointer that owns it
        some { s.use winner with destroyed := Function.update s.destroyed e (s.destroyed e + 1) }
      | none =>
        let s := s.put e
        some (s.evictIfOverCapacity capacity s.lru.length)
    | _ => none
  | .release e => if 0 < s.users e then some (s.release e) else none
  | .evict number => some (s.evict number)

/-! ## Owners and counts -/

/-- The entry is in the map. -/
def State.Mapped (s : State T) (e : ℕ) : Prop := s.entries.lookup (s.fileNumber e) = some e

instance (s : State T) (e : ℕ) : Decidable (s.Mapped e) :=
  inferInstanceAs (Decidable (s.entries.lookup (s.fileNumber e) = some e))

/-- A thread has opened the entry and not yet taken the lock again. -/
def State.Opened (s : State T) (e : ℕ) : Prop := ∃ t, s.place t = .opened e

/-- Nobody has the entry any more: not the map, no user, and not the thread that opened it. -/
def State.Left (s : State T) (e : ℕ) : Prop :=
  e < s.next ∧ ¬ s.Mapped e ∧ s.users e = 0 ∧ ¬ s.Opened e

/-- What holds in every state. -/
structure Inv (s : State T) : Prop where
  listed : s.lru.Perm s.entries.entries
  numbered : ∀ n e, s.entries.lookup n = some e → s.fileNumber e = n ∧ e < s.next
  counted : ∀ e, s.refs e = s.users e + if s.Mapped e then 1 else 0
  opened : ∀ t e, s.place t = .opened e → e < s.next ∧ ¬ s.Mapped e ∧ s.users e = 0
  opened_once : ∀ t u e, s.place t = .opened e → s.place u = .opened e → t = u
  unmade : ∀ e, s.next ≤ e → s.users e = 0
  destroyed : ∀ e, s.destroyed e ≤ 1 ∧ (s.destroyed e = 1 ↔ s.Left e)

theorem inv_init : Inv (State.init : State T) where
  listed := .nil
  numbered := nofun
  counted := fun _ => rfl
  opened := nofun
  opened_once := nofun
  unmade := fun _ _ => rfl
  destroyed := fun e => ⟨Nat.zero_le _, nofun, fun h => absurd h.1 (Nat.not_lt_zero e)⟩

section

variable {s : State T}

theorem leave_eq (n e : ℕ) : s.leave n e = { s with
    refs := Function.update s.refs e (s.refs e - 1)
    entries := s.entries.erase n
    destroyed := if s.refs e - 1 = 0 then Function.update s.destroyed e (s.destroyed e + 1)
      else s.destroyed } := by
  unfold State.leave
  simp only [Function.update_self]
  split_ifs <;> rfl

theorem release_eq (e : ℕ) : s.release e = { s with
    refs := Function.update s.refs e (s.refs e - 1)
    users := Function.update s.users e (s.users e - 1)
    destroyed := if s.refs e - 1 = 0 then Function.update s.destroyed e (s.destroyed e + 1)
      else s.destroyed } := by
  unfold State.release
  simp only [Function.update_self]
  split_ifs <;> rfl

theorem splice_perm (e : ℕ) : (s.splice e).Perm s.lru := by
  unfold State.splice
  cases hfind : s.lru.find? (·.2 = e) with
  | none => exact .refl _
  | some node => exact (List.perm_cons_erase (List.mem_of_find?_eq_some hfind)).symm

/-- Who has opened an entry after one thread moved on. -/
theorem place_update [DecidableEq T] {t u : T} {place : Place} {e : ℕ} (hp : ∀ e, place ≠ .opened e) :
    Function.update s.place t place u = .opened e ↔ u ≠ t ∧ s.place u = .opened e := by
  by_cases hut : u = t
  · subst hut
    simp [hp e]
  · simp [hut]

theorem place_outside [DecidableEq T] {t u : T} {e : ℕ} :
    Function.update s.place t .outside u = .opened e ↔ u ≠ t ∧ s.place u = .opened e :=
  place_update nofun

namespace Inv

variable (h : Inv s)

include h

theorem mapped {n e : ℕ} (hn : s.entries.lookup n = some e) : s.Mapped e := by
  unfold State.Mapped
  rw [(h.numbered n e hn).1, hn]

theorem destroyed_eq_zero {e : ℕ} (hnot : ¬ s.Left e) : s.destroyed e = 0 := by
  obtain ⟨hle, hiff⟩ := h.destroyed e
  have : s.destroyed e ≠ 1 := fun heq => hnot (hiff.mp heq)
  omega

/-- One entry is destroyed or not, and the others are as they were. -/
theorem destroyed_update {s' : State T} {e : ℕ} (gone : Prop) [Decidable gone] (hnot : ¬ s.Left e)
    (heq : s'.destroyed =
      if gone then Function.update s.destroyed e (s.destroyed e + 1) else s.destroyed)
    (hgone : s'.Left e ↔ gone) (hrest : ∀ e', e' ≠ e → (s'.Left e' ↔ s.Left e')) (e' : ℕ) :
    s'.destroyed e' ≤ 1 ∧ (s'.destroyed e' = 1 ↔ s'.Left e') := by
  have hzero := h.destroyed_eq_zero hnot
  by_cases he : e' = e
  · subst he
    rw [heq, hgone]
    split_ifs with hg <;> simp [hzero, hg]
  · rw [hrest e' he, show s'.destroyed e' = s.destroyed e' by
      rw [heq]; split_ifs <;> simp [Function.update_of_ne he]]
    exact h.destroyed e'

/-- The map gives one more user its entry. -/
theorem use {n e : ℕ} (hn : s.entries.lookup n = some e) : Inv (s.use e) where
  listed := (splice_perm e).trans h.listed
  numbered := h.numbered
  counted := fun e' => by
    have hold := h.counted e'
    change Function.update s.refs e (s.refs e + 1) e' =
      (Function.update s.users e (s.users e + 1) e' : ℕ) + if s.Mapped e' then 1 else 0
    by_cases he : e' = e
    · subst he
      simp only [Function.update_self, hold]
      push_cast
      exact add_right_comm _ _ _
    · simpa only [Function.update_of_ne he] using hold
  opened := fun t e' hplace => by
    obtain ⟨hlt, hnot, hzero⟩ := h.opened t e' hplace
    have he : e' ≠ e := fun heq => hnot (heq ▸ h.mapped hn)
    exact ⟨hlt, hnot, by simpa [State.use, Function.update_of_ne he] using hzero⟩
  opened_once := h.opened_once
  unmade := fun e' hle => by
    have he : e' ≠ e := fun heq => absurd (h.numbered n e hn).2 (heq ▸ Nat.not_lt.mpr hle)
    simpa [State.use, Function.update_of_ne he] using h.unmade e' hle
  destroyed := by
    have hleft : ¬ s.Left e := fun hl => hl.2.1 (h.mapped hn)
    refine h.destroyed_update False hleft (by simp [State.use]) ?_ fun e' he => ?_
    · exact ⟨fun hl => hl.2.1 (h.mapped hn), False.elim⟩
    · simp only [State.Left, State.use, State.Mapped, State.Opened, Function.update_of_ne he]

/-- An entry leaves the map, and its node the list. -/
theorem leave {n e : ℕ} {lru : List Node} (hn : s.entries.lookup n = some e)
    (hlru : lru.Perm (s.entries.erase n).entries) : Inv ({ s with lru := lru }.leave n e) := by
  have hnumber := (h.numbered n e hn).1
  have hmapped : ∀ e', ({ s with lru := lru }.leave n e).Mapped e' ↔ e' ≠ e ∧ s.Mapped e' := by
    intro e'
    rw [leave_eq]
    constructor
    · intro hm
      obtain ⟨hne, hm⟩ := Lib.lookup_erase_eq hm
      exact ⟨fun heq => hne (heq ▸ hnumber), hm⟩
    · intro ⟨hne, hm⟩
      refine (AList.lookup_erase_ne fun heq => hne ?_).trans hm
      exact Option.some.inj ((heq ▸ hm : s.entries.lookup n = some e').symm.trans hn)
  have hcount : s.refs e = s.users e + 1 := by rw [h.counted, if_pos (h.mapped hn)]
  have hleft : ∀ e', ({ s with lru := lru }.leave n e).Left e' ↔
      e' < s.next ∧ ¬ (e' ≠ e ∧ s.Mapped e') ∧ s.users e' = 0 ∧ ¬ s.Opened e' := by
    intro e'
    unfold State.Left
    rw [hmapped, leave_eq]
    rfl
  refine ⟨?_, ?_, fun e' => ?_, fun t e' hplace => ?_, ?_, ?_, ?_⟩
  · rw [leave_eq]
    exact hlru
  · intro n' e' hn'
    rw [leave_eq] at hn' ⊢
    exact h.numbered n' e' (Lib.lookup_erase_eq hn').2
  · have hold := h.counted e'
    rw [if_congr (hmapped e') rfl rfl, leave_eq]
    by_cases he : e' = e
    · subst he
      simp [hcount]
    · simpa [Function.update_of_ne he, he] using hold
  · rw [leave_eq] at hplace
    obtain ⟨hlt, hnot, hzero⟩ := h.opened t e' hplace
    refine ⟨by rwa [leave_eq], fun hm => hnot ((hmapped e').mp hm).2, by rwa [leave_eq]⟩
  · rw [leave_eq]
    exact h.opened_once
  · rw [leave_eq]
    exact h.unmade
  · refine h.destroyed_update (s.refs e - 1 = 0) (fun hl => hl.2.1 (h.mapped hn)) ?_ ?_ ?_
    · rw [leave_eq]
    · rw [hleft, hcount]
      have hlt := (h.numbered n e hn).2
      have hopened : ¬ s.Opened e := fun ⟨t, ht⟩ => (h.opened t e ht).2.1 (h.mapped hn)
      simp [hlt, hopened]
    · intro e' he
      rw [hleft]
      simp only [he, ne_eq, not_false_eq_true, true_and]
      rfl

theorem opened_ne {t u : T} {e e' : ℕ} (hplace : s.place t = .opened e)
    (hu : u ≠ t ∧ s.place u = .opened e') : e' ≠ e := fun heq =>
  hu.1 (h.opened_once u t e (heq ▸ hu.2) hplace)

omit h in
theorem opened_iff [DecidableEq T] {t : T} {e e' : ℕ} (hplace : s.place t = .opened e)
    (he : e' ≠ e) : (∃ u, Function.update s.place t .outside u = .opened e') ↔ s.Opened e' := by
  constructor
  · intro ⟨u, hu⟩
    exact ⟨u, (place_outside.mp hu).2⟩
  · intro ⟨u, hu⟩
    refine ⟨u, place_outside.mpr ⟨fun heq => he ?_, hu⟩⟩
    exact Place.opened.inj (hu.symm.trans (heq ▸ hplace))

/-- The entry a thread opened gets its place in the map, and the thread is its first user. -/
theorem put [DecidableEq T] {t : T} {e : ℕ} (hplace : s.place t = .opened e)
    (hfree : s.entries.lookup (s.fileNumber e) = none) :
    Inv ({ s with place := Function.update s.place t .outside }.put e) := by
  obtain ⟨hlt, hnot, hzero⟩ := h.opened t e hplace
  set s' := { s with place := Function.update s.place t .outside }.put e with hs'
  have hmapped : ∀ e', s'.Mapped e' ↔ e' = e ∨ s.Mapped e' := by
    intro e'
    constructor
    · intro hm
      rcases Lib.lookup_insert_eq hm with heq | ⟨-, hm⟩
      · exact .inl (congrArg Sigma.snd heq)
      · exact .inr hm
    · rintro (rfl | hm)
      · exact AList.lookup_insert _
      · refine (AList.lookup_insert_ne fun heq => ?_).trans hm
        exact nomatch hfree.symm.trans ((congrArg s.entries.lookup heq).symm.trans hm)
  have hopened : ∀ u e', s'.place u = .opened e' → u ≠ t ∧ s.place u = .opened e' := fun u e' =>
    place_outside.mp
  refine ⟨?_, ?_, fun e' => ?_, fun u e' hu => ?_, ?_, fun e' hle => ?_, ?_⟩
  · rw [show s'.entries = s.entries.insert (s.fileNumber e) e from rfl,
      AList.entries_insert_of_notMem (AList.lookup_eq_none.mp hfree)]
    exact h.listed.cons _
  · intro n' e' hn'
    rcases Lib.lookup_insert_eq hn' with heq | ⟨-, hn'⟩
    · cases heq
      exact ⟨rfl, hlt⟩
    · exact h.numbered n' e' hn'
  · have hold := h.counted e'
    rw [if_congr (hmapped e') rfl rfl]
    by_cases he : e' = e
    · subst he
      simp [hs', State.put, hzero]
    · simpa [hs', State.put, Function.update_of_ne he, he] using hold
  · have hne : e' ≠ e := h.opened_ne hplace (hopened u e' hu)
    obtain ⟨hlt', hnot', hzero'⟩ := h.opened u e' (hopened u e' hu).2
    refine ⟨hlt', fun hm => ?_, by simpa [hs', State.put, Function.update_of_ne hne] using hzero'⟩
    exact ((hmapped e').mp hm).elim hne hnot'
  · intro u v e' hu hv
    exact h.opened_once u v e' (hopened u e' hu).2 (hopened v e' hv).2
  · have hne : e' ≠ e := fun heq => absurd hlt (heq ▸ Nat.not_lt.mpr hle)
    simpa [hs', State.put, Function.update_of_ne hne] using h.unmade e' hle
  · refine h.destroyed_update False (fun hl => hl.2.2.2 ⟨t, hplace⟩) (by simp [hs', State.put]) ?_ ?_
    · exact ⟨fun hl => hl.2.1 ((hmapped e).mpr (.inl rfl)), False.elim⟩
    · intro e' he
      unfold State.Left
      rw [hmapped, show s'.Opened e' ↔ s.Opened e' from opened_iff hplace he]
      simp [he, hs', State.put]

/-- The copy of a thread that lost the race is destroyed with its pointer. -/
theorem drop [DecidableEq T] {t : T} {e : ℕ} (hplace : s.place t = .opened e) :
    Inv { s with
      place := Function.update s.place t .outside
      destroyed := Function.update s.destroyed e (s.destroyed e + 1) } where
  listed := h.listed
  numbered := h.numbered
  counted := h.counted
  opened := fun u e' hu => h.opened u e' (place_outside.mp hu).2
  opened_once := fun u v e' hu hv =>
    h.opened_once u v e' (place_outside.mp hu).2 (place_outside.mp hv).2
  unmade := h.unmade
  destroyed := by
    obtain ⟨hlt, hnot, hzero⟩ := h.opened t e hplace
    refine h.destroyed_update True (fun hl => hl.2.2.2 ⟨t, hplace⟩) (if_pos trivial).symm ?_ ?_
    · refine iff_of_true ⟨hlt, hnot, hzero, fun ⟨u, hu⟩ => ?_⟩ trivial
      exact h.opened_ne hplace (place_outside.mp hu) rfl
    · intro e' he
      exact and_congr_right' (and_congr_right' (and_congr_right' (not_congr (opened_iff hplace he))))

/-- A thread moves on without an entry of its own. -/
theorem move [DecidableEq T] {t : T} {place : Place} (hold : ∀ e, s.place t ≠ .opened e)
    (hnew : ∀ e, place ≠ .opened e) :
    Inv { s with place := Function.update s.place t place } where
  listed := h.listed
  numbered := h.numbered
  counted := h.counted
  opened := fun u e hu => h.opened u e ((place_update hnew).mp hu).2
  opened_once := fun u v e hu hv =>
    h.opened_once u v e ((place_update hnew).mp hu).2 ((place_update hnew).mp hv).2
  unmade := h.unmade
  destroyed := fun e => by
    have hiff : (∃ u, Function.update s.place t place u = .opened e) ↔ s.Opened e := by
      refine exists_congr fun u => (place_update hnew).trans (and_iff_right_of_imp ?_)
      exact fun hu heq => hold e (heq ▸ hu)
    obtain ⟨hle, hleft⟩ := h.destroyed e
    refine ⟨hle, hleft.trans ?_⟩
    exact and_congr_right' (and_congr_right' (and_congr_right' (not_congr hiff.symm)))

theorem fresh (e : ℕ) (hle : s.next ≤ e) : ¬ s.Mapped e ∧ s.users e = 0 ∧ s.destroyed e = 0 := by
  refine ⟨fun hm => ?_, h.unmade e hle, h.destroyed_eq_zero fun hl => absurd hl.1 (by omega)⟩
  exact absurd (h.numbered _ e hm).2 (by omega)

/-- A file was opened: there is one more entry, and the thread alone has it. -/
theorem make [DecidableEq T] {t : T} {n : ℕ} (hplace : s.place t = .opening n) :
    Inv { s with
      fileNumber := Function.update s.fileNumber s.next n
      next := s.next + 1
      place := Function.update s.place t (.opened s.next) } := by
  set s' := { s with
    fileNumber := Function.update s.fileNumber s.next n
    next := s.next + 1
    place := Function.update s.place t (.opened s.next) } with hs'
  have hlookup : ∀ n' e, s.entries.lookup n' = some e → e ≠ s.next := fun n' e hn heq =>
    absurd (h.numbered n' e hn).2 (by omega)
  have hmapped : ∀ e, s'.Mapped e ↔ s.Mapped e := by
    intro e
    by_cases he : e = s.next
    · subst he
      exact iff_of_false (fun hm => hlookup _ _ hm rfl) (fun hm => hlookup _ _ hm rfl)
    · unfold State.Mapped
      rw [show s'.fileNumber e = s.fileNumber e from Function.update_of_ne he ..]
  have hopened : ∀ u e, s'.place u = .opened e ↔ u = t ∧ e = s.next ∨ s.place u = .opened e := by
    intro u e
    by_cases hut : u = t
    · subst hut
      simp [hs', hplace, eq_comm]
    · simp [hs', hut]
  have hused : ∀ u, s.place u ≠ .opened s.next := fun u hu =>
    absurd (h.opened u _ hu).1 (lt_irrefl _)
  refine ⟨h.listed, fun n' e hn => ?_, fun e => ?_, fun u e hu => ?_, fun u v e hu hv => ?_, ?_, ?_⟩
  · obtain ⟨hnumber, hlt⟩ := h.numbered n' e hn
    exact ⟨by simp [hs', Function.update_of_ne (hlookup n' e hn), hnumber], Nat.lt_succ_of_lt hlt⟩
  · rw [if_congr (hmapped e) rfl rfl]
    exact h.counted e
  · rw [hmapped]
    rcases (hopened u e).mp hu with ⟨-, rfl⟩ | hu
    · obtain ⟨hnot, hzero, -⟩ := h.fresh s.next le_rfl
      exact ⟨Nat.lt_succ_self _, hnot, hzero⟩
    · obtain ⟨hlt, hrest⟩ := h.opened u e hu
      exact ⟨Nat.lt_succ_of_lt hlt, hrest⟩
  · rcases (hopened u e).mp hu with ⟨rfl, rfl⟩ | hu
    · rcases (hopened v _).mp hv with ⟨rfl, -⟩ | hv
      · rfl
      · exact absurd hv (hused v)
    · rcases (hopened v e).mp hv with ⟨-, rfl⟩ | hv
      · exact absurd hu (hused u)
      · exact h.opened_once u v e hu hv
  · exact fun e hle => h.unmade e (Nat.le_of_succ_le hle)
  · refine h.destroyed_update False (fun hl => absurd hl.1 (lt_irrefl s.next)) (by simp [hs']) ?_ ?_
    · exact ⟨fun hl => hl.2.2.2 ⟨t, (hopened t _).mpr (.inl ⟨rfl, rfl⟩)⟩, False.elim⟩
    · intro e he
      have hlt : e < s.next + 1 ↔ e < s.next := by omega
      have hiff : s'.Opened e ↔ s.Opened e :=
        exists_congr fun u => (hopened u e).trans (or_iff_right fun hu => he hu.2)
      unfold State.Left
      rw [hmapped, hiff, show s'.next = s.next + 1 from rfl, hlt]

theorem release {e : ℕ} (hused : 0 < s.users e) : Inv (s.release e) := by
  have hlt : e < s.next := by
    by_contra hle
    have := h.unmade e (Nat.not_lt.mp hle)
    omega
  have hopened : ¬ s.Opened e := fun ⟨t, ht⟩ => by
    have := (h.opened t e ht).2.2
    omega
  have hcount := h.counted e
  have hleft : ∀ e', (s.release e).Left e' ↔ e' < s.next ∧ ¬ s.Mapped e' ∧
      Function.update s.users e (s.users e - 1) e' = 0 ∧ ¬ s.Opened e' := by
    intro e'
    rw [release_eq]
    rfl
  rw [release_eq]
  refine ⟨h.listed, h.numbered, fun e' => ?_, fun t e' ht => ?_, h.opened_once, fun e' hle => ?_, ?_⟩
  · have hold := h.counted e'
    change Function.update s.refs e (s.refs e - 1) e' =
      (Function.update s.users e (s.users e - 1) e' : ℕ) + if s.Mapped e' then 1 else 0
    by_cases he : e' = e
    · subst he
      simp only [Function.update_self]
      omega
    · simpa only [Function.update_of_ne he] using hold
  · have he : e' ≠ e := fun heq => hopened ⟨t, heq ▸ ht⟩
    obtain ⟨hlt', hnot, hzero⟩ := h.opened t e' ht
    exact ⟨hlt', hnot, by simpa [Function.update_of_ne he] using hzero⟩
  · have he : e' ≠ e := fun heq => absurd hlt (heq ▸ Nat.not_lt.mpr hle)
    simpa [Function.update_of_ne he] using h.unmade e' hle
  · rw [← release_eq]
    refine h.destroyed_update (e := e) (s.refs e - 1 = 0) (fun hl => hused.ne' hl.2.2.1) ?_ ?_ ?_
    · rw [release_eq]
    · rw [hleft, Function.update_self, hcount]
      by_cases hm : s.Mapped e
      · simp [hm]
        omega
      · simp [hm, hlt, hopened]
        omega
    · intro e' he
      rw [hleft, Function.update_of_ne he]
      rfl

/-! ## Evictions -/

theorem evict (n : ℕ) : Inv (s.evict n) := by
  unfold State.evict
  cases hn : s.entries.lookup n with
  | none => exact h
  | some e =>
    refine h.leave hn ?_
    have hmem : (⟨n, e⟩ : Node) ∈ s.lru := h.listed.mem_iff.mpr (AList.mem_lookup_iff.mp hn)
    obtain ⟨node, l₁, l₂, -, hnode, heq, hrest⟩ :=
      List.exists_of_eraseP (p := fun m : Node => m.2 = e) hmem (by simp)
    -- the node of the entry is the one with its number
    have hin : node ∈ s.entries.entries := h.listed.mem_iff.mp (by simp [heq])
    obtain rfl : node = ⟨n, e⟩ := by
      obtain ⟨n', e'⟩ := node
      obtain rfl : e' = e := of_decide_eq_true hnode
      rw [← (h.numbered n e' hn).1, ← (h.numbered n' e' (AList.mem_lookup_iff.mpr hin)).1]
    have hperm := h.listed.trans (Lib.erase_perm hn)
    rw [heq] at hperm
    rw [hrest]
    exact (List.perm_middle.symm.trans hperm).cons_inv

end Inv

/-- The loop ends with the map within its capacity. The node in front stays: the loop
    takes the last node of a list that is longer than the capacity, which is at least one. -/
theorem Inv.evictIfOverCapacity {capacity : ℕ} (hpos : 1 ≤ capacity) {node : Node} :
    ∀ {fuel : ℕ} {s : State T}, Inv s → s.lru.length ≤ fuel → s.lru.head? = some node →
      Inv (s.evictIfOverCapacity capacity fuel) ∧
      (s.evictIfOverCapacity capacity fuel).entries.keys.length ≤ capacity ∧
      (s.evictIfOverCapacity capacity fuel).lru.head? = some node := by
  intro fuel
  induction fuel with
  | zero =>
    intro s h hlen hhead
    simp [List.length_eq_zero_iff.mp (Nat.le_zero.mp hlen)] at hhead
  | succ fuel ih =>
    intro s h hlen hhead
    unfold State.evictIfOverCapacity
    by_cases hover : capacity < s.entries.keys.length
    · rw [if_pos hover]
      have hsize : s.entries.keys.length = s.lru.length := by
        rw [h.listed.length_eq]
        exact List.length_map _
      have hne : s.lru ≠ [] := fun hnil => by simp [hnil] at hhead
      set victim := s.lru.getLast hne with hvictim
      have hsplit : s.lru.dropLast ++ [victim] = s.lru := List.dropLast_append_getLast hne
      have hin : victim ∈ s.entries.entries := h.listed.mem_iff.mp (List.getLast_mem hne)
      have hfound : s.entries.lookup victim.1 = some victim.2 := AList.mem_lookup_iff.mpr hin
      simp only [List.getLast?_eq_some_getLast hne, ← hvictim, hfound]
      have hperm : s.lru.dropLast.Perm (s.entries.erase victim.1).entries := by
        have hall := h.listed.trans (Lib.erase_perm hfound)
        rw [← hsplit] at hall
        exact (List.perm_append_singleton _ _).symm.trans hall |>.cons_inv
      refine ih (h.leave hfound hperm) ?_ ?_
      · rw [leave_eq]
        simp only [List.length_dropLast]
        omega
      · rw [leave_eq]
        have hlong : 2 ≤ s.lru.length := by omega
        rw [← hhead]
        match hl : s.lru, hlong with
        | a :: b :: rest, _ => simp
    · rw [if_neg hover]
      exact ⟨h, Nat.not_lt.mp hover, hhead⟩

end

/-! ## Steps and runs -/

variable [DecidableEq T] {capacity : ℕ} {s s' : State T}

/-- The insertion of `find`: the map ends within its capacity, and it has an entry for the
    number, the thread's own unless another was there. -/
theorem Inv.insert (h : Inv s) (hpos : 1 ≤ capacity) (hsize : s.entries.keys.length ≤ capacity)
    {t : T} {e : ℕ} (hplace : s.place t = .opened e)
    (hstep : s.step capacity (.insert t) = some s') :
    Inv s' ∧ s'.entries.keys.length ≤ capacity ∧
    s'.entries.lookup (s.fileNumber e) = some ((s.entries.lookup (s.fileNumber e)).getD e) := by
  simp only [State.step, hplace] at hstep
  cases hfound : s.entries.lookup (s.fileNumber e) with
  | some winner =>
    simp only [hfound, Option.some.injEq] at hstep
    subst hstep
    exact ⟨(h.drop hplace).use hfound, hsize, hfound⟩
  | none =>
    simp only [hfound, Option.some.injEq] at hstep
    subst hstep
    obtain ⟨hinv, hle, hhead⟩ :=
      (h.put hplace hfound).evictIfOverCapacity hpos le_rfl (List.head?_cons ..)
    refine ⟨hinv, hle, AList.mem_lookup_iff.mpr ?_⟩
    exact hinv.listed.mem_iff.mp (List.mem_of_mem_head? hhead)

omit [DecidableEq T] in
theorem keys_length_leave (n e : ℕ) : (s.leave n e).entries.keys.length ≤ s.entries.keys.length := by
  rw [leave_eq, AList.keys_erase]
  exact List.length_erase_le

theorem Inv.step (h : Inv s) (hpos : 1 ≤ capacity) (hsize : s.entries.keys.length ≤ capacity)
    {a : Action T} (hstep : s.step capacity a = some s') :
    Inv s' ∧ s'.entries.keys.length ≤ capacity := by
  cases a with
  | lookup t n =>
    simp only [State.step, Option.ite_none_right_eq_some] at hstep
    obtain ⟨hplace, hstep⟩ := hstep
    cases hfound : s.entries.lookup n with
    | some e =>
      simp only [hfound, Option.some.injEq] at hstep
      subst hstep
      exact ⟨h.use hfound, hsize⟩
    | none =>
      simp only [hfound, Option.some.injEq] at hstep
      subst hstep
      exact ⟨h.move (by simp [hplace]) nofun, hsize⟩
  | openTable t ok =>
    cases hplace : s.place t with
    | opening n =>
      simp only [State.step, hplace] at hstep
      split_ifs at hstep
      · cases hstep
        exact ⟨h.make hplace, hsize⟩
      · cases hstep
        exact ⟨h.move (by simp [hplace]) nofun, hsize⟩
    | outside => simp [State.step, hplace] at hstep
    | opened e => simp [State.step, hplace] at hstep
  | insert t =>
    cases hplace : s.place t with
    | opened e =>
      obtain ⟨hinv, hle, -⟩ := h.insert hpos hsize hplace hstep
      exact ⟨hinv, hle⟩
    | outside => simp [State.step, hplace] at hstep
    | opening n => simp [State.step, hplace] at hstep
  | release e =>
    simp only [State.step, Option.ite_none_right_eq_some, Option.some.injEq] at hstep
    obtain ⟨hused, rfl⟩ := hstep
    refine ⟨h.release hused, ?_⟩
    rw [release_eq]
    exact hsize
  | evict n =>
    obtain rfl := Option.some.inj hstep
    refine ⟨h.evict n, ?_⟩
    unfold State.evict
    cases s.entries.lookup n with
    | none => exact hsize
    | some e => exact (keys_length_leave n e).trans hsize

/-- In every state of every run a count is the number of users, and one more in the map; an
    entry is destroyed once, and has been when the map, its users and the thread that opened
    it are through with it; the list has the numbers of the map, each once. An insertion
    ends within the capacity and with an entry for its number in the map. -/
theorem shard_owned (entries : ℤ) {acts : List (Action T)}
    (hrun : Lib.run (State.step (capacityOf entries)) State.init acts = some s) :
    (∀ e, s.refs e = s.users e + if s.Mapped e then 1 else 0) ∧
    (∀ e, s.destroyed e ≤ 1 ∧ (s.destroyed e = 1 ↔ s.Left e)) ∧
    (s.lru.map Sigma.fst).Perm s.entries.keys ∧ s.entries.keys.Nodup ∧
    ∀ t e s', s.place t = .opened e → s.step (capacityOf entries) (.insert t) = some s' →
      s'.entries.keys.length ≤ capacityOf entries ∧
      s'.entries.lookup (s.fileNumber e) = some ((s.entries.lookup (s.fileNumber e)).getD e) := by
  have hpos := capacityOf_pos entries
  obtain ⟨h, hsize⟩ : Inv s ∧ s.entries.keys.length ≤ capacityOf entries :=
    @Lib.run_invariant _ _ (State.step (capacityOf entries))
      (fun s => Inv s ∧ s.entries.keys.length ≤ capacityOf entries)
      (fun s a s' h hstep => h.1.step hpos h.2 hstep) _ _ _ ⟨inv_init, Nat.zero_le _⟩ hrun
  refine ⟨h.counted, h.destroyed, h.listed.map _, s.entries.keys_nodup, fun t e s' hplace hstep => ?_⟩
  exact (h.insert hpos hsize hplace hstep).2

/-- Two threads open one file; the winner's entry is evicted while both use it. -/
def race : List (Action Bool) :=
  [.lookup false 5, .lookup true 5, .openTable false true, .openTable true true, .insert true,
    .insert false, .lookup true 7, .openTable true true, .insert true, .release 1, .release 1]

theorem shard_owned_race :
    ∃ s, Lib.run (State.step (capacityOf 1)) State.init race = some s ∧ s.destroyed 0 = 1 ∧
      s.Left 0 ∧ s.destroyed 1 = 1 ∧ s.Left 1 := by
  have heval : (Lib.run (State.step (capacityOf 1)) State.init race).map
      (fun s => (s.destroyed 0, s.destroyed 1)) = some (1, 1) := by decide +kernel
  obtain ⟨s, hs, heq⟩ := Option.map_eq_some_iff.mp heval
  obtain ⟨hloser, hwinner⟩ := Prod.mk.inj heq
  obtain ⟨-, hdestroyed, -⟩ := shard_owned 1 hs
  exact ⟨s, hs, hloser, (hdestroyed 0).2.mp hloser, hwinner, (hdestroyed 1).2.mp hwinner⟩

end TableCache

end Ambar
