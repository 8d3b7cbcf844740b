import Ambar.Cache.HashTable
import Ambar.Lib.Trace

/-!
# A shard of the block cache

`LRUShard` (`src/cache.cpp`, lines 139–258) keeps its entries in a hash table and in one of
two lists: `in_use_` while a user holds the entry, `lru_` when nobody does. An entry counts
its users and, while it is in the table, the table; whoever takes the count to zero runs the
deleter. Only `lru_` is evicted from, its oldest entry first, and only by `insert` and
`release`.

Beside the shard runs a history of what was called and evicted, from which the purpose of
the cache is read: who holds an entry (`users`), what a key should find (`latest`), and in
what order entries were released (`lastRelease`).

* `Core.add`, `Core.finishErase`, `Core.found`, `Core.released`: what the parts of a call
  leave true.
* `Inv.evictToCapacity`: the loop evicts in order and ends within the capacity.
* `shard_correct_iff`: in every state of every run, the lists, the table and the deleters
  are right, and `usage_` is the sum of the charges unless that is 2⁶⁴ or more.
-/

namespace Ambar

namespace LRUShard

/-- What does not change of an entry; the address tells insertions apart. The hash of its
    key is `hash key`. -/
structure Entry (K V : Type*) where
  address : ℕ
  key : K
  value : V
  charge : BitVec 64
deriving DecidableEq

/-- What happened to a shard. -/
inductive Event (K V : Type*) where
  | inserted (e : Entry K V)
  | found (e : Entry K V)
  | released (e : Entry K V)
  | erased (k : K)
  | evicted (e : Entry K V)

variable {K V H : Type*} [DecidableEq K] [DecidableEq V] {hash : K → H}

/-! ## What a history says -/

/-- The handles of an entry that were given out and not released. The last event comes
    first. -/
def users (e : Entry K V) : List (Event K V) → ℕ
  | [] => 0
  | .inserted x :: h => if x = e then users e h + 1 else users e h
  | .found x :: h => if x = e then users e h + 1 else users e h
  | .released x :: h => if x = e then users e h - 1 else users e h
  | .erased _ :: h => users e h
  | .evicted _ :: h => users e h

/-- What was last inserted under a key, unless it was erased or evicted since. -/
def latest (k : K) : List (Event K V) → Option (Entry K V)
  | [] => none
  | .inserted x :: h => if x.key = k then some x else latest k h
  | .found _ :: h => latest k h
  | .released _ :: h => latest k h
  | .erased k' :: h => if k' = k then none else latest k h
  | .evicted x :: h => if x.key = k then none else latest k h

/-- When an entry was last released. -/
def lastRelease (e : Entry K V) : List (Event K V) → ℕ
  | [] => 0
  | .released x :: h => if x = e then h.length + 1 else lastRelease e h
  | .inserted _ :: h => lastRelease e h
  | .found _ :: h => lastRelease e h
  | .erased _ :: h => lastRelease e h
  | .evicted _ :: h => lastRelease e h

/-- The entry is in the cache and nobody holds it. -/
def Idle (h : List (Event K V)) (e : Entry K V) : Prop := latest e.key h = some e ∧ users e h = 0

/-- Every eviction took, of the entries nobody held, the one released least recently. -/
def InOrder : List (Event K V) → Prop
  | [] => True
  | .evicted e :: h => (Idle h e ∧ ∀ x, Idle h x → lastRelease e h ≤ lastRelease x h) ∧ InOrder h
  | .inserted _ :: h => InOrder h
  | .found _ :: h => InOrder h
  | .released _ :: h => InOrder h
  | .erased _ :: h => InOrder h

theorem users_of_ne {e x : Entry K V} (h : x ≠ e) (hs : List (Event K V)) :
    users x (.inserted e :: hs) = users x hs ∧ users x (.found e :: hs) = users x hs ∧
      users x (.released e :: hs) = users x hs := by
  simp [users, h.symm]

theorem lastRelease_le (e : Entry K V) (h : List (Event K V)) : lastRelease e h ≤ h.length := by
  induction h with
  | nil => exact le_rfl
  | cons ev h ih =>
    cases ev with
    | released x =>
      unfold lastRelease
      split_ifs
      · exact le_rfl
      · exact ih.trans (Nat.le_succ _)
    | _ => exact ih.trans (Nat.le_succ _)

omit [DecidableEq V] in
theorem latest_key {k : K} {e : Entry K V} {h : List (Event K V)} (hl : latest k h = some e) :
    e.key = k := by
  induction h with
  | nil => exact nomatch hl
  | cons ev h ih =>
    cases ev with
    | inserted x =>
      unfold latest at hl
      split_ifs at hl with hx
      · exact Option.some.inj hl ▸ hx
      · exact ih hl
    | erased k' | evicted x =>
      unfold latest at hl
      split_ifs at hl
      exact ih hl
    | found x | released x => exact ih hl

/-! ## The shard -/

/-- A shard. The entries made so far have the addresses below `next`. -/
structure State (hash : K → H) (V : Type*) where
  table : HashTable hash (Entry.key (V := V))
  /-- Both lists have their oldest entry first. -/
  lru : List (Entry K V)
  inUse : List (Entry K V)
  usage : BitVec 64
  refs : Entry K V → BitVec 32
  inCache : Entry K V → Bool
  next : ℕ
  /-- How often the deleter of an entry ran. -/
  deleted : Entry K V → ℕ
  history : List (Event K V)

namespace State

def init : State hash V where
  table := .empty
  lru := []
  inUse := []
  usage := 0
  refs := fun _ => 0
  inCache := fun _ => false
  next := 0
  deleted := fun _ => 0
  history := []

variable (s : State hash V)

/-- `unref` (lines 232–239). -/
def unref (e : Entry K V) : State hash V :=
  let refs := Function.update s.refs e (s.refs e - 1)
  if refs e = 0 then
    { s with refs := refs, deleted := Function.update s.deleted e (s.deleted e + 1) }
  else { s with refs := refs }

/-- `LRUList::remove`, which takes an entry out of the list it is in. -/
def unlink (e : Entry K V) : State hash V :=
  { s with lru := s.lru.erase e, inUse := s.inUse.erase e }

variable [DecidableEq H]

/-- `finish_erase` (lines 223–230). -/
def finishErase (e : Entry K V) (inTable : Bool) : State hash V :=
  { s.unlink e with
    inCache := Function.update s.inCache e false
    usage := s.usage - e.charge
    table := if inTable then s.table.remove e else s.table }.unref e

/-- `evict_to_capacity` (lines 241–249). -/
def evictToCapacity (capacity : BitVec 64) : ℕ → State hash V → State hash V
  | 0, s => s
  | fuel + 1, s =>
    if capacity < s.usage then
      match s.lru with
      | [] => s
      | e :: _ =>
        evictToCapacity capacity fuel
          { s.finishErase e true with history := .evicted e :: s.history }
    else s

/-- The entry `insert` makes and its first lines (lines 158–170); the table has it, and not
    yet what becomes of the entry it replaced. -/
def add (e : Entry K V) : State hash V :=
  { s with
    next := s.next + 1
    refs := Function.update s.refs e 2
    inCache := Function.update s.inCache e true
    usage := s.usage + e.charge
    inUse := s.inUse ++ [e]
    table := (s.table.insert e).2
    history := .inserted e :: s.history }

/-- `insert` (lines 154–178). -/
def insert (capacity : BitVec 64) (key : K) (value : V) (charge : BitVec 64) : State hash V :=
  let e : Entry K V := ⟨s.next, key, value, charge⟩
  let added :=
    match (s.table.insert e).1 with
    | some old => (s.add e).finishErase old false
    | none => s.add e
  added.evictToCapacity capacity added.lru.length

/-- `lookup` (lines 180–192): what it returns, and the shard. -/
def lookup (key : K) : Option (Entry K V) × State hash V :=
  match s.table.find key with
  | none => (none, s)
  | some e =>
    let s := { s with refs := Function.update s.refs e (s.refs e + 1) }.unlink e
    (some e, { s with inUse := s.inUse ++ [e], history := .found e :: s.history })

/-- `release` (lines 194–205). -/
def release (capacity : BitVec 64) (e : Entry K V) : State hash V :=
  let s := { s with history := .released e :: s.history }
  let moved :=
    if s.refs e = 2 ∧ s.inCache e = true then
      let s := s.unlink e
      { s with lru := s.lru ++ [e] }
    else s
  let s := moved.unref e
  s.evictToCapacity capacity s.lru.length

/-- `erase` (lines 207–212). -/
def erase (key : K) : State hash V :=
  let s := { s with history := .erased key :: s.history }
  match s.table.find key with
  | none => s
  | some e => s.finishErase e true

end State

/-- A call of the shard. -/
inductive Action (K V : Type*) where
  | insert (key : K) (value : V) (charge : BitVec 64)
  | lookup (key : K)
  | release (e : Entry K V)
  | erase (key : K)

/-- One call. A handle is released once: only an entry with a user can be. -/
def State.step [DecidableEq H] (capacity : BitVec 64) (s : State hash V) : Action K V → Option (State hash V)
  | .insert key value charge => some (s.insert capacity key value charge)
  | .lookup key => some (s.lookup key).2
  | .release e => if 0 < users e s.history then some (s.release capacity e) else none
  | .erase key => some (s.erase key)

/-! ## What the parts of a call leave true -/

/-- The entry is in nobody's hands: it was inserted, has left the cache, and has no user. -/
def Gone (h : List (Event K V)) (cached : Multiset (Entry K V)) (e : Entry K V) : Prop :=
  .inserted e ∈ h ∧ e ∉ cached ∧ users e h = 0

/-- What holds of the entries charged to the cache, `cached`: those of the table, and inside
    `insert` also the entry it has just replaced. -/
structure Core (s : State hash V) (cached : Multiset (Entry K V)) : Prop where
  usage : s.usage = BitVec.ofNat 64 (cached.map fun e => e.charge.toNat).sum
  listed : Multiset.ofList (s.lru ++ s.inUse) = cached
  nodup : (s.lru ++ s.inUse).Nodup
  idle : ∀ e ∈ s.lru, users e s.history = 0
  busy : ∀ e ∈ s.inUse, users e s.history ≠ 0
  counted : ∀ e, s.refs e = BitVec.ofNat 32 (users e s.history + if e ∈ cached then 1 else 0)
  bounded : ∀ e, users e s.history + 1 < 2 ^ 32
  inCache : ∀ e, s.inCache e = true ↔ e ∈ cached
  made : ∀ e, e ∈ cached ∨ users e s.history ≠ 0 → .inserted e ∈ s.history
  fresh : ∀ e, .inserted e ∈ s.history → e.address < s.next
  ordered : s.lru.Pairwise fun a b => lastRelease a s.history < lastRelease b s.history
  deleted : ∀ e, s.deleted e ≤ 1 ∧ (s.deleted e = 1 ↔ Gone s.history cached e)

theorem core_init : Core (State.init : State hash V) 0 where
  usage := rfl
  listed := rfl
  nodup := List.nodup_nil
  idle := nofun
  busy := nofun
  counted := fun e => rfl
  bounded := fun e => by norm_num [State.init, users]
  inCache := fun e => by simp [State.init]
  made := fun e h => by simp [State.init, users] at h
  fresh := nofun
  ordered := .nil
  deleted := fun e => ⟨Nat.zero_le _, nofun, fun h => nomatch h.1⟩

theorem unref_eq (s : State hash V) (e : Entry K V) : s.unref e = { s with
    refs := Function.update s.refs e (s.refs e - 1)
    deleted := if s.refs e - 1 = 0 then Function.update s.deleted e (s.deleted e + 1)
      else s.deleted } := by
  unfold State.unref
  simp only [Function.update_self]
  split_ifs <;> rfl

theorem ofNat_eq_iff {a b : ℕ} (ha : a < 2 ^ 32) (hb : b < 2 ^ 32) :
    BitVec.ofNat 32 a = BitVec.ofNat 32 b ↔ a = b := by
  constructor
  · intro h
    have hmod := congrArg BitVec.toNat h
    rwa [BitVec.toNat_ofNat, BitVec.toNat_ofNat, Nat.mod_eq_of_lt ha, Nat.mod_eq_of_lt hb] at hmod
  · exact congrArg _

/-- The count after it dropped, and whether it came to zero. -/
theorem refs_drop {refs : BitVec 32} {n : ℕ} (hn : n < 2 ^ 32)
    (hrefs : refs = BitVec.ofNat 32 (n + 1)) :
    refs - 1 = BitVec.ofNat 32 n ∧ (refs - 1 = 0 ↔ n = 0) := by
  have hdrop : refs - 1 = BitVec.ofNat 32 n := by
    rw [hrefs, BitVec.ofNat_add]
    exact BitVec.add_sub_cancel _ _
  refine ⟨hdrop, ?_⟩
  rw [hdrop]
  exact ofNat_eq_iff hn (by norm_num)

namespace Core

variable {s : State hash V} {cached : Multiset (Entry K V)} (h : Core s cached)

include h

theorem mem_cached {e : Entry K V} : e ∈ cached ↔ e ∈ s.lru ∨ e ∈ s.inUse := by
  rw [← h.listed, Multiset.mem_coe, List.mem_append]

theorem mem_lru {e : Entry K V} (he : e ∈ cached) : e ∈ s.lru ↔ users e s.history = 0 :=
  ⟨h.idle e, fun hz => (h.mem_cached.mp he).resolve_right fun hbusy => h.busy e hbusy hz⟩

theorem mem_inUse {e : Entry K V} (he : e ∈ cached) : e ∈ s.inUse ↔ users e s.history ≠ 0 :=
  ⟨h.busy e, fun hne => (h.mem_cached.mp he).resolve_left fun hidle => hne (h.idle e hidle)⟩

/-- What is left of the lists without an entry. -/
theorem unlink (e : Entry K V) :
    Multiset.ofList (s.lru.erase e ++ s.inUse.erase e) = cached.erase e := by
  rw [← h.listed, Multiset.coe_erase]
  by_cases he : e ∈ s.lru
  · have hnot : e ∉ s.inUse := List.disjoint_of_nodup_append h.nodup he
    rw [List.erase_of_not_mem hnot, List.erase_append_left _ he]
  · rw [List.erase_of_not_mem he, List.erase_append_right _ he]

theorem unlink_nodup (e : Entry K V) : (s.lru.erase e ++ s.inUse.erase e).Nodup :=
  h.nodup.sublist (List.erase_sublist.append List.erase_sublist)

theorem cached_nodup : cached.Nodup := by
  rw [← h.listed]
  exact h.nodup

/-- One deleter runs or not, and the other entries are as they were. -/
theorem deleted_update {h' : List (Event K V)} {cached' : Multiset (Entry K V)}
    {deleted' : Entry K V → ℕ} {e : Entry K V} (gone : Prop) [Decidable gone]
    (hnot : ¬ Gone s.history cached e)
    (heq : deleted' = if gone then Function.update s.deleted e (s.deleted e + 1) else s.deleted)
    (hgone : Gone h' cached' e ↔ gone)
    (hrest : ∀ x, x ≠ e → (Gone h' cached' x ↔ Gone s.history cached x)) (x : Entry K V) :
    deleted' x ≤ 1 ∧ (deleted' x = 1 ↔ Gone h' cached' x) := by
  have hzero : s.deleted e = 0 := by
    obtain ⟨hle, hiff⟩ := h.deleted e
    have : s.deleted e ≠ 1 := fun hone => hnot (hiff.mp hone)
    omega
  by_cases hx : x = e
  · subst hx
    rw [heq, hgone]
    split_ifs with hg <;> simp [hzero, hg]
  · rw [hrest x hx, show deleted' x = s.deleted x by
      rw [heq]; split_ifs <;> simp [Function.update_of_ne hx]]
    exact h.deleted x

theorem refs_cached {e : Entry K V} (he : e ∈ cached) :
    s.refs e = BitVec.ofNat 32 (users e s.history + 1) := by
  rw [h.counted, if_pos he]

theorem finishErase [DecidableEq H] {e : Entry K V} (he : e ∈ cached) (inTable : Bool) :
    Core (s.finishErase e inTable) (cached.erase e) := by
  have hmem : ∀ {x}, x ∈ cached.erase e ↔ x ≠ e ∧ x ∈ cached := h.cached_nodup.mem_erase_iff
  obtain ⟨hdrop, hzero⟩ := refs_drop (Nat.lt_of_succ_lt (h.bounded e)) (h.refs_cached he)
  unfold State.finishErase
  rw [unref_eq]
  refine ⟨?_, h.unlink e, h.unlink_nodup e, fun x hx => h.idle x (List.mem_of_mem_erase hx),
    fun x hx => h.busy x (List.mem_of_mem_erase hx), fun x => ?_, h.bounded, fun x => ?_,
    fun x hx => h.made x (hx.imp_left fun hc => (hmem.mp hc).2), h.fresh,
    h.ordered.sublist List.erase_sublist, ?_⟩
  · change s.usage - e.charge = _
    rw [h.usage, ← Multiset.cons_erase he, Multiset.map_cons, Multiset.sum_cons, BitVec.ofNat_add,
      BitVec.ofNat_toNat, BitVec.setWidth_eq, Multiset.erase_cons_head, BitVec.add_comm,
      BitVec.add_sub_cancel]
  · change Function.update s.refs e (s.refs e - 1) x = _
    by_cases hx : x = e
    · subst hx
      rw [Function.update_self, hdrop, if_neg fun hc => (hmem.mp hc).1 rfl]
      rfl
    · rw [Function.update_of_ne hx, h.counted x]
      simp [hmem, hx, State.unlink]
  · change Function.update s.inCache e false x = true ↔ _
    by_cases hx : x = e
    · subst hx
      simp [hmem]
    · rw [Function.update_of_ne hx, h.inCache, hmem]
      simp [hx]
  · refine h.deleted_update (s.refs e - 1 = 0) (fun hg => hg.2.1 he) rfl ?_ fun x hx => ?_
    · rw [hzero]
      exact ⟨fun hg => hg.2.2, fun hz => ⟨h.made e (.inl he), fun hc => (hmem.mp hc).1 rfl, hz⟩⟩
    · unfold Gone
      rw [hmem]
      simp [hx, State.unlink]

/-- The entry `insert` makes is in nobody's hands yet. -/
theorem not_made {e : Entry K V} (he : s.next ≤ e.address) :
    .inserted e ∉ s.history ∧ e ∉ cached ∧ users e s.history = 0 := by
  have hnew : .inserted e ∉ s.history := fun hin => absurd (h.fresh e hin) (by omega)
  exact ⟨hnew, fun hc => hnew (h.made e (.inl hc)), by_contra fun hu => hnew (h.made e (.inr hu))⟩

theorem add [DecidableEq H] {e : Entry K V} (he : e.address = s.next) :
    Core (s.add e) (e ::ₘ cached) := by
  obtain ⟨hnew, hnot, hzero⟩ := h.not_made he.ge
  have husers : ∀ x, users x (.inserted e :: s.history) =
      if x = e then 1 else users x s.history := by
    intro x
    by_cases hx : x = e
    · subst hx
      simp [users, hzero]
    · rw [(users_of_ne hx _).1, if_neg hx]
  have hused : ∀ x, x ∈ s.lru ∨ x ∈ s.inUse → x ≠ e := fun x hx heq =>
    hnot (heq ▸ h.mem_cached.mpr hx)
  have hperm : (s.lru ++ (s.inUse ++ [e])).Perm (e :: (s.lru ++ s.inUse)) := by
    rw [← List.append_assoc]
    exact List.perm_append_singleton e _
  refine ⟨?_, ?_, ?_, fun x hx => ?_, fun x hx => ?_, fun x => ?_, fun x => ?_, fun x => ?_,
    fun x hx => ?_, fun x hx => ?_, h.ordered, ?_⟩
  · change s.usage + e.charge = _
    rw [h.usage, Multiset.map_cons, Multiset.sum_cons, BitVec.ofNat_add, BitVec.ofNat_toNat,
      BitVec.setWidth_eq, BitVec.add_comm]
  · rw [← h.listed]
    exact Multiset.coe_eq_coe.mpr hperm
  · refine hperm.nodup_iff.mpr (List.nodup_cons.mpr ⟨fun hmem => ?_, h.nodup⟩)
    exact hused e (List.mem_append.mp hmem) rfl
  · exact (husers x).trans ((if_neg (hused x (.inl hx))).trans (h.idle x hx))
  · change users x (.inserted e :: s.history) ≠ 0
    rw [husers]
    split_ifs with hxe
    · exact one_ne_zero
    · exact h.busy x ((List.mem_append.mp hx).resolve_right fun hmem => hxe (List.mem_singleton.mp hmem))
  · change Function.update s.refs e 2 x = BitVec.ofNat 32 (users x (.inserted e :: s.history) + _)
    rw [husers]
    by_cases hx : x = e
    · subst hx
      simp
    · rw [Function.update_of_ne hx, h.counted x]
      simp [hx]
  · change users x (.inserted e :: s.history) + 1 < _
    rw [husers]
    split_ifs
    · norm_num
    · exact h.bounded x
  · change Function.update s.inCache e true x = true ↔ _
    by_cases hx : x = e
    · subst hx
      simp
    · rw [Function.update_of_ne hx, h.inCache, Multiset.mem_cons]
      simp [hx]
  · change x ∈ e ::ₘ cached ∨ users x (.inserted e :: s.history) ≠ 0 at hx
    rw [husers] at hx
    by_cases hxe : x = e
    · subst hxe
      exact List.mem_cons_self
    · refine List.mem_cons_of_mem _ (h.made x ?_)
      simpa [hxe] using hx
  · rcases List.mem_cons.mp hx with heq | hold
    · cases heq
      exact he ▸ Nat.lt_succ_self _
    · exact Nat.lt_succ_of_lt (h.fresh x hold)
  · refine h.deleted_update False (fun hg => hnew hg.1) (if_neg id).symm ?_ fun x hx => ?_
    · exact ⟨fun hg => hg.2.1 (Multiset.mem_cons_self e cached), False.elim⟩
    · change _ ∈ Event.inserted e :: s.history ∧ _ ∧ users x (.inserted e :: s.history) = 0 ↔ _
      rw [husers, if_neg hx]
      simp [Gone, hx]

theorem found {e : Entry K V} (he : e ∈ cached) (hfits : users e s.history + 2 < 2 ^ 32) :
    Core { s with
      refs := Function.update s.refs e (s.refs e + 1)
      lru := s.lru.erase e
      inUse := s.inUse.erase e ++ [e]
      history := .found e :: s.history } cached := by
  have husers : ∀ x, users x (.found e :: s.history) =
      if x = e then users e s.history + 1 else users x s.history := by
    intro x
    by_cases hx : x = e
    · subst hx
      simp [users]
    · rw [(users_of_ne hx _).2.1, if_neg hx]
  have hperm : (s.lru.erase e ++ (s.inUse.erase e ++ [e])).Perm
      (e :: (s.lru.erase e ++ s.inUse.erase e)) := by
    rw [← List.append_assoc]
    exact List.perm_append_singleton e _
  have hlisted : Multiset.ofList (s.lru.erase e ++ (s.inUse.erase e ++ [e])) = cached := by
    rw [Multiset.coe_eq_coe.mpr hperm, ← Multiset.cons_coe, h.unlink e, Multiset.cons_erase he]
  refine ⟨h.usage, hlisted, ?_, fun x hx => ?_, fun x hx => ?_, fun x => ?_, fun x => ?_, h.inCache,
    fun x hx => List.mem_cons_of_mem _ (h.made x ?_), fun x hx => ?_,
    h.ordered.sublist List.erase_sublist, ?_⟩
  · change (Multiset.ofList (s.lru.erase e ++ (s.inUse.erase e ++ [e]))).Nodup
    rw [hlisted]
    exact h.cached_nodup
  · have hxe : x ≠ e := fun heq => (h.nodup.of_append_left).not_mem_erase (heq ▸ hx)
    exact (husers x).trans ((if_neg hxe).trans (h.idle x (List.mem_of_mem_erase hx)))
  · change users x (.found e :: s.history) ≠ 0
    rw [husers]
    split_ifs with hxe
    · exact Nat.succ_ne_zero _
    · refine h.busy x (List.mem_of_mem_erase ((List.mem_append.mp hx).resolve_right fun hmem => ?_))
      exact hxe (List.mem_singleton.mp hmem)
  · change Function.update s.refs e (s.refs e + 1) x = BitVec.ofNat 32 (users x (.found e :: s.history) + _)
    rw [husers]
    by_cases hx : x = e
    · subst hx
      rw [Function.update_self, h.counted, if_pos rfl, add_right_comm, BitVec.ofNat_add _ 1]
      rfl
    · rw [Function.update_of_ne hx, h.counted x, if_neg hx]
  · change users x (.found e :: s.history) + 1 < _
    rw [husers]
    split_ifs
    · exact hfits
    · exact h.bounded x
  · change x ∈ cached ∨ users x (.found e :: s.history) ≠ 0 at hx
    rw [husers] at hx
    by_cases hxe : x = e
    · exact .inl (hxe ▸ he)
    · simpa [hxe] using hx
  · exact h.fresh x ((List.mem_cons.mp hx).resolve_left nofun)
  · refine h.deleted_update False (fun hg => hg.2.1 he) (if_neg id).symm ?_ fun x hx => ?_
    · exact ⟨fun hg => hg.2.1 he, False.elim⟩
    · change _ ∈ Event.found e :: s.history ∧ _ ∧ users x (.found e :: s.history) = 0 ↔ _
      rw [husers, if_neg hx]
      simp [Gone]

/-- A handle is released; what is left to say is where the lists stand after it. -/
theorem releasedTo {e : Entry K V} (hu : 0 < users e s.history) {lru inUse : List (Entry K V)}
    (hlisted : (lru ++ inUse).Perm (s.lru ++ s.inUse))
    (hidle : ∀ x ∈ lru, users x (.released e :: s.history) = 0)
    (hbusy : ∀ x ∈ inUse, users x (.released e :: s.history) ≠ 0)
    (hordered : lru.Pairwise fun a b =>
      lastRelease a (.released e :: s.history) < lastRelease b (.released e :: s.history)) :
    Core ({ s with lru := lru, inUse := inUse, history := .released e :: s.history }.unref e)
      cached := by
  have husers : ∀ x, users x (.released e :: s.history) =
      if x = e then users e s.history - 1 else users x s.history := by
    intro x
    by_cases hx : x = e
    · subst hx
      simp [users]
    · rw [(users_of_ne hx _).2.2, if_neg hx]
  have hbound := h.bounded e
  have hrefs : s.refs e =
      BitVec.ofNat 32 (users e s.history - 1 + (if e ∈ cached then 1 else 0) + 1) := by
    rw [h.counted e]
    congr 1
    omega
  obtain ⟨hdrop, hzero⟩ := refs_drop (by split_ifs <;> omega) hrefs
  rw [unref_eq]
  refine ⟨h.usage, ?_, hlisted.nodup_iff.mpr h.nodup, hidle, hbusy, fun x => ?_, fun x => ?_, h.inCache,
    fun x hx => List.mem_cons_of_mem _ (h.made x ?_), fun x hx => ?_, hordered, ?_⟩
  · exact (Multiset.coe_eq_coe.mpr hlisted).trans h.listed
  · change Function.update s.refs e (s.refs e - 1) x =
      BitVec.ofNat 32 (users x (.released e :: s.history) + _)
    rw [husers]
    by_cases hx : x = e
    · subst hx
      rw [Function.update_self, if_pos rfl, hdrop]
    · rw [Function.update_of_ne hx, h.counted x, if_neg hx]
  · change users x (.released e :: s.history) + 1 < _
    rw [husers]
    split_ifs
    · omega
    · exact h.bounded x
  · change x ∈ cached ∨ users x (.released e :: s.history) ≠ 0 at hx
    rw [husers] at hx
    by_cases hxe : x = e
    · exact .inr (hxe ▸ hu.ne')
    · simpa [hxe] using hx
  · exact h.fresh x ((List.mem_cons.mp hx).resolve_left nofun)
  · refine h.deleted_update (s.refs e - 1 = 0) (fun hg => hu.ne' hg.2.2) rfl ?_ fun x hx => ?_
    · have hmade := h.made e (.inr hu.ne')
      change _ ∈ Event.released e :: s.history ∧ _ ∧ users e (.released e :: s.history) = 0 ↔ _
      rw [husers, if_pos rfl, hzero]
      by_cases hc : e ∈ cached <;> simp [hc, hmade]
    · change _ ∈ Event.released e :: s.history ∧ _ ∧ users x (.released e :: s.history) = 0 ↔ _
      rw [husers, if_neg hx]
      simp [Gone]

theorem released {e : Entry K V} (hu : 0 < users e s.history) :
    Core ((if s.refs e = 2 ∧ s.inCache e = true then
      { s with
        lru := s.lru.erase e ++ [e]
        inUse := s.inUse.erase e
        history := .released e :: s.history }
      else { s with history := .released e :: s.history }).unref e) cached := by
  have hother : ∀ x ≠ e, users x (.released e :: s.history) = users x s.history := fun x hx =>
    (users_of_ne hx _).2.2
  have hself : users e (.released e :: s.history) = users e s.history - 1 := by simp [users]
  have hnot : e ∉ s.lru := fun hin => hu.ne' (h.idle e hin)
  have hne : ∀ x ∈ s.lru, x ≠ e := fun x hx heq => hnot (heq ▸ hx)
  have hlast : ∀ x ∈ s.lru, lastRelease x (.released e :: s.history) = lastRelease x s.history :=
    fun x hx => by simp [lastRelease, (hne x hx).symm]
  have hordered : s.lru.Pairwise fun a b =>
      lastRelease a (.released e :: s.history) < lastRelease b (.released e :: s.history) :=
    h.ordered.imp_of_mem fun ha hb hlt => by rwa [hlast _ ha, hlast _ hb]
  have hlast_one : s.refs e = 2 ∧ s.inCache e = true ↔ e ∈ cached ∧ users e s.history = 1 := by
    rw [h.inCache, and_comm]
    refine and_congr_right fun hc => ?_
    rw [h.refs_cached hc]
    exact (ofNat_eq_iff (h.bounded e) (by norm_num : 2 < 2 ^ 32)).trans (by omega)
  split_ifs with hif
  · obtain ⟨hc, hone⟩ := hlast_one.mp hif
    have hin : e ∈ s.inUse := (h.mem_inUse hc).mpr (by omega)
    rw [List.erase_of_not_mem hnot]
    refine h.releasedTo hu ?_ (fun x hx => ?_) (fun x hx => ?_) ?_
    · rw [List.append_assoc]
      exact (List.perm_cons_erase hin).symm.append_left s.lru
    · rcases List.mem_append.mp hx with hx | hx
      · rw [hother x (hne x hx), h.idle x hx]
      · rw [List.mem_singleton.mp hx, hself, hone]
    · have hxe : x ≠ e := fun heq => (h.nodup.of_append_right).not_mem_erase (heq ▸ hx)
      rw [hother x hxe]
      exact h.busy x (List.mem_of_mem_erase hx)
    · refine List.pairwise_append.mpr ⟨hordered, List.pairwise_singleton _ _, fun x hx y hy => ?_⟩
      -- the entry is now the one released last
      rw [List.mem_singleton.mp hy, hlast x hx]
      simpa [lastRelease] using Nat.lt_succ_of_le (lastRelease_le x s.history)
  · refine h.releasedTo hu (.refl _) (fun x hx => ?_) (fun x hx => ?_) hordered
    · rw [hother x (hne x hx), h.idle x hx]
    · by_cases hxe : x = e
      · subst hxe
        have hmore : users x s.history ≠ 1 := fun hone =>
          hif (hlast_one.mpr ⟨h.mem_cached.mpr (.inr hx), hone⟩)
        rw [hself]
        omega
      · rw [hother x hxe]
        exact h.busy x hx

/-- An event that is no handle's. -/
theorem quiet (ev : Event K V) (husers : ∀ x, users x (ev :: s.history) = users x s.history)
    (hlast : ∀ x, lastRelease x (ev :: s.history) = lastRelease x s.history)
    (hev : ∀ x, ev ≠ .inserted x) : Core { s with history := ev :: s.history } cached := by
  have hin : ∀ x, .inserted x ∈ ev :: s.history ↔ .inserted x ∈ s.history := fun x =>
    ⟨fun hx => (List.mem_cons.mp hx).resolve_left fun heq => hev x heq.symm, List.mem_cons_of_mem _⟩
  refine ⟨h.usage, h.listed, h.nodup, fun x hx => ?_, fun x hx => ?_, fun x => ?_, fun x => ?_, h.inCache,
    fun x hx => (hin x).mpr (h.made x ?_), fun x hx => h.fresh x ((hin x).mp hx), ?_, fun x => ?_⟩
  · exact (husers x).trans (h.idle x hx)
  · exact (husers x).trans_ne (h.busy x hx)
  · rw [husers]
    exact h.counted x
  · rw [husers]
    exact h.bounded x
  · rwa [husers] at hx
  · simpa only [hlast] using h.ordered
  · unfold Gone
    rw [hin, husers]
    exact h.deleted x

end Core

/-! ## Calls and runs -/

/-- What holds between calls. -/
structure Inv (s : State hash V) : Prop where
  core : Core s s.table.contents
  latest : ∀ e, e ∈ s.table.contents ↔ latest e.key s.history = some e
  inOrder : InOrder s.history

theorem inv_init : Inv (State.init : State hash V) where
  core := core_init
  latest := fun e => iff_of_false (Multiset.notMem_zero e) nofun
  inOrder := trivial

/-- An entry leaves the table, and its key finds nothing. -/
theorem latest_erase {cached : Multiset (Entry K V)} {h : List (Event K V)} {e : Entry K V}
    (hnodup : cached.Nodup) (hlatest : ∀ x, x ∈ cached ↔ latest x.key h = some x) (he : e ∈ cached)
    (x : Entry K V) :
    x ∈ cached.erase e ↔ (if e.key = x.key then none else latest x.key h) = some x := by
  rw [hnodup.mem_erase_iff, hlatest]
  by_cases hkey : e.key = x.key
  · rw [if_pos hkey]
    refine iff_of_false (fun ⟨hne, hx⟩ => hne ?_) nofun
    exact Option.some.inj (hx.symm.trans (hkey ▸ (hlatest e).mp he))
  · rw [if_neg hkey]
    exact and_iff_right_of_imp fun _ heq => hkey (heq ▸ rfl)

variable [DecidableEq H]

theorem finishErase_frame (s : State hash V) (e : Entry K V) (inTable : Bool) :
    (s.finishErase e inTable).history = s.history ∧
    (s.finishErase e inTable).lru = s.lru.erase e ∧
    (s.finishErase e inTable).table = if inTable then s.table.remove e else s.table := by
  unfold State.finishErase
  rw [unref_eq]
  exact ⟨rfl, rfl, rfl⟩

theorem remove_eq_erase {t : HashTable hash (Entry.key (V := V))} {e : Entry K V}
    (he : e ∈ t.contents) : (t.remove e).contents = t.contents.erase e := by
  rw [← t.remove_contents he, Multiset.erase_cons_head]

namespace Inv

variable {s : State hash V} (h : Inv s)

include h

omit [DecidableEq H] in
theorem idle_iff (e : Entry K V) : Idle s.history e ↔ e ∈ s.lru := by
  constructor
  · intro ⟨hlatest, hzero⟩
    exact (h.core.mem_lru ((h.latest e).mpr hlatest)).mpr hzero
  · intro hin
    exact ⟨(h.latest e).mp (h.core.mem_cached.mpr (.inl hin)), h.core.idle e hin⟩

theorem evictOldest {e : Entry K V} {rest : List (Entry K V)} (hlru : s.lru = e :: rest) :
    Inv { s.finishErase e true with history := .evicted e :: s.history } := by
  have hin : e ∈ s.lru := by simp [hlru]
  have he : e ∈ s.table.contents := h.core.mem_cached.mpr (.inl hin)
  obtain ⟨hhistory, -, htable⟩ := finishErase_frame s e true
  have hcontents : (s.finishErase e true).table.contents = s.table.contents.erase e := by
    rw [htable]
    exact remove_eq_erase he
  refine ⟨?_, fun x => ?_, ⟨(h.idle_iff e).mpr hin, fun x hx => ?_⟩, h.inOrder⟩
  · have hcore := (h.core.finishErase he true).quiet (.evicted e) (fun _ => rfl) (fun _ => rfl)
      nofun
    rw [hhistory] at hcore
    exact hcontents.symm ▸ hcore
  · change x ∈ (s.finishErase e true).table.contents ↔ _
    rw [hcontents]
    exact latest_erase h.core.cached_nodup h.latest he x
  · -- the list is in the order of the last releases, and `e` is its first
    have hmem := (h.idle_iff x).mp hx
    have hordered := h.core.ordered
    rw [hlru] at hmem hordered
    rcases List.mem_cons.mp hmem with rfl | hmem
    · exact le_rfl
    · exact (List.rel_of_pairwise_cons hordered hmem).le

end Inv

theorem Inv.evictToCapacity {capacity : BitVec 64} :
    ∀ {fuel : ℕ} {s : State hash V}, Inv s → s.lru.length ≤ fuel →
      Inv (s.evictToCapacity capacity fuel) ∧
      ((s.evictToCapacity capacity fuel).usage ≤ capacity ∨
        (s.evictToCapacity capacity fuel).lru = []) := by
  intro fuel
  induction fuel with
  | zero =>
    intro s h hlen
    exact ⟨h, .inr (List.length_eq_zero_iff.mp (Nat.le_zero.mp hlen))⟩
  | succ fuel ih =>
    intro s h hlen
    unfold State.evictToCapacity
    by_cases hover : capacity < s.usage
    · rw [if_pos hover]
      cases hlru : s.lru with
      | nil => exact ⟨h, .inr hlru⟩
      | cons e rest =>
        refine ih (h.evictOldest hlru) ?_
        change (s.finishErase e true).lru.length ≤ fuel
        rw [(finishErase_frame s e true).2.1, hlru, List.erase_cons_head]
        simpa [hlru] using hlen
    · rw [if_neg hover]
      exact ⟨h, .inl (BitVec.not_lt.mp hover)⟩

namespace Inv

variable {s : State hash V} (h : Inv s)

include h

theorem insert (capacity : BitVec 64) (key : K) (value : V) (charge : BitVec 64) :
    Inv (s.insert capacity key value charge) ∧
    ((s.insert capacity key value charge).usage ≤ capacity ∨
      (s.insert capacity key value charge).lru = []) := by
  unfold State.insert
  dsimp only
  set e : Entry K V := ⟨s.next, key, value, charge⟩ with he
  have hcontents := s.table.insert_contents e
  have hcore := h.core.add (e := e) rfl
  have hlatest : ∀ x, x ∈ (s.table.insert e).2.contents ↔
      LRUShard.latest x.key (.inserted e :: s.history) = some x := by
    intro x
    rw [HashTable.mem_insert, h.latest]
    simp only [LRUShard.latest]
    by_cases hkey : e.key = x.key
    · simp [hkey, eq_comm]
    · have hne : x ≠ e := fun heq => hkey (heq ▸ rfl)
      simp [hkey, hne, Ne.symm hkey]
  refine Inv.evictToCapacity ?_ le_rfl
  cases hold : (s.table.insert e).1 with
  | none =>
    rw [hold] at hcontents
    refine ⟨?_, hlatest, h.inOrder⟩
    have heq : (s.add e).table.contents = e ::ₘ s.table.contents := by
      rw [← hcontents, Option.toList_none, Multiset.coe_nil, add_zero]
      rfl
    exact heq ▸ hcore
  | some old =>
    rw [hold] at hcontents
    have hmem : old ∈ e ::ₘ s.table.contents := by
      rw [← hcontents]
      simp
    obtain ⟨hhistory, -, htable⟩ := finishErase_frame (s.add e) old false
    have heq : (s.add e).table.contents = (e ::ₘ s.table.contents).erase old := by
      rw [← hcontents, Option.toList_some, Multiset.coe_singleton, Multiset.add_comm,
        Multiset.singleton_add, Multiset.erase_cons_head]
      rfl
    refine ⟨?_, fun x => ?_, ?_⟩
    · rw [htable]
      exact heq.symm ▸ hcore.finishErase hmem false
    · rw [htable, hhistory]
      exact hlatest x
    · rw [hhistory]
      exact h.inOrder

/-- What `lookup` returns is what the history says. -/
theorem find_eq (key : K) : s.table.find key = LRUShard.latest key s.history := by
  cases hf : s.table.find key with
  | some e =>
    obtain ⟨he, rfl⟩ := s.table.find_eq_some.mp hf
    exact ((h.latest e).mp he).symm
  | none =>
    cases hl : LRUShard.latest key s.history with
    | none => rfl
    | some e =>
      obtain rfl := latest_key hl
      exact absurd rfl (s.table.find_eq_none.mp hf e ((h.latest e).mpr hl))

theorem lookup {key : K} (hfits : ∀ e ∈ s.table.find key, users e s.history + 2 < 2 ^ 32) :
    Inv (s.lookup key).2 := by
  unfold State.lookup
  cases hf : s.table.find key with
  | none => exact h
  | some e =>
    have he := (s.table.find_eq_some.mp hf).1
    exact ⟨h.core.found he (hfits e hf), h.latest, h.inOrder⟩

theorem release {e : Entry K V} (hu : 0 < users e s.history) (capacity : BitVec 64) :
    Inv (s.release capacity e) ∧
    ((s.release capacity e).usage ≤ capacity ∨ (s.release capacity e).lru = []) := by
  unfold State.release
  refine Inv.evictToCapacity ?_ le_rfl
  have hcore := h.core.released hu
  dsimp only [State.unlink]
  by_cases hlast : s.refs e = 2 ∧ s.inCache e = true
  · rw [if_pos hlast, unref_eq] at hcore ⊢
    exact ⟨hcore, h.latest, h.inOrder⟩
  · rw [if_neg hlast, unref_eq] at hcore ⊢
    exact ⟨hcore, h.latest, h.inOrder⟩

theorem erase (key : K) : Inv (s.erase key) := by
  unfold State.erase
  have hcore := h.core.quiet (.erased key) (fun _ => rfl) (fun _ => rfl) nofun
  dsimp only
  cases hf : s.table.find key with
  | none =>
    refine ⟨hcore, fun x => ?_, h.inOrder⟩
    change x ∈ s.table.contents ↔ (if key = x.key then none else LRUShard.latest x.key s.history) = some x
    rw [h.latest]
    by_cases hkey : key = x.key
    · subst hkey
      rw [if_pos rfl, ← h.find_eq, hf]
    · rw [if_neg hkey]
  | some e =>
    obtain ⟨he, rfl⟩ := s.table.find_eq_some.mp hf
    obtain ⟨hhistory, -, htable⟩ := finishErase_frame { s with history := .erased e.key :: s.history } e true
    have hcontents : (s.table.remove e).contents = s.table.contents.erase e := remove_eq_erase he
    refine ⟨?_, fun x => ?_, ?_⟩
    · rw [htable]
      exact hcontents.symm ▸ hcore.finishErase he true
    · rw [htable, hhistory]
      change x ∈ (s.table.remove e).contents ↔ _
      rw [hcontents]
      exact latest_erase h.core.cached_nodup h.latest he x
    · rw [hhistory]
      exact h.inOrder

end Inv

/-- A count of 32 bits has room for one more user of the entry that is looked up. -/
def Fits (s : State hash V) : Action K V → Prop
  | .lookup key => ∀ e ∈ s.table.find key, users e s.history + 2 < 2 ^ 32
  | _ => True

instance (s : State hash V) (a : Action K V) : Decidable (Fits s a) :=
  match a with
  | .lookup key => inferInstanceAs (Decidable (∀ e ∈ s.table.find key, _))
  | .insert .. | .release _ | .erase _ => inferInstanceAs (Decidable True)

theorem Inv.step {capacity : BitVec 64} {s s' : State hash V} {a : Action K V} (h : Inv s)
    (hfits : Fits s a) (hstep : s.step capacity a = some s') : Inv s' := by
  cases a with
  | insert key value charge =>
    obtain rfl := Option.some.inj hstep
    exact (h.insert capacity key value charge).1
  | lookup key =>
    obtain rfl := Option.some.inj hstep
    exact h.lookup hfits
  | release e =>
    simp only [State.step, Option.ite_none_right_eq_some, Option.some.injEq] at hstep
    obtain ⟨hu, rfl⟩ := hstep
    exact (h.release hu capacity).1
  | erase key =>
    obtain rfl := Option.some.inj hstep
    exact h.erase key

/-- The sum of the charges of the entries in the table. -/
def State.charges (s : State hash V) : ℕ := (s.table.contents.map fun e => e.charge.toNat).sum

omit [DecidableEq H] in
theorem Core.usage_iff {s : State hash V} (h : Core s s.table.contents) :
    s.usage.toNat = s.charges ↔ s.charges < 2 ^ 64 := by
  rw [h.usage, BitVec.toNat_ofNat]
  exact Nat.mod_eq_iff_lt (by norm_num)

/-- In every state of every run the lists, the table, the deleters and the evictions are as
    they should be, and `usage_` is the sum of the charges exactly if that fits 64 bits. -/
theorem shard_correct_iff (capacity : BitVec 64) {acts : List (Action K V)} {s : State hash V}
    (hfits : Lib.Along (State.step capacity) Fits (State.init : State hash V) acts)
    (hrun : Lib.run (State.step capacity) State.init acts = some s) :
    (s.usage.toNat = s.charges ↔ s.charges < 2 ^ 64) ∧
    (Multiset.ofList (s.lru ++ s.inUse) = s.table.contents ∧ (s.lru ++ s.inUse).Nodup ∧
      ∀ e ∈ s.table.contents, (e ∈ s.lru ↔ users e s.history = 0) ∧
        (e ∈ s.inUse ↔ users e s.history ≠ 0)) ∧
    (∀ key, (s.lookup key).1.map Entry.value = (latest key s.history).map Entry.value) ∧
    (∀ e, s.deleted e ≤ 1 ∧ (s.deleted e = 1 ↔ Gone s.history s.table.contents e)) ∧
    (∀ key value charge, (s.insert capacity key value charge).usage ≤ capacity ∨
      (s.insert capacity key value charge).lru = []) ∧
    (∀ e, 0 < users e s.history → (s.release capacity e).usage ≤ capacity ∨
      (s.release capacity e).lru = []) ∧
    InOrder s.history := by
  have h : Inv s := Lib.run_invariant_of (State.step capacity)
    (fun s a s' hs hfit hstep => hs.step hfit hstep) inv_init hfits hrun
  refine ⟨h.core.usage_iff, ⟨h.core.listed, h.core.nodup, fun e he => ?_⟩, fun key => ?_, h.core.deleted,
    fun key value charge => (h.insert capacity key value charge).2,
    fun e hu => (h.release hu capacity).2, h.inOrder⟩
  · exact ⟨h.core.mem_lru he, h.core.mem_inUse he⟩
  · rw [← h.find_eq]
    unfold State.lookup
    cases s.table.find key <;> rfl

/-- Two entries of 2⁶³ bytes are held at once. -/
def twoHalves : List (Action Bool ℕ) :=
  [.insert false 0 (BitVec.ofNat 64 (2 ^ 63)), .insert true 1 (BitVec.ofNat 64 (2 ^ 63))]

/-- `usage_` wraps to zero. -/
theorem usage_wraps :
    ∃ s : State (fun _ : Bool => 0) ℕ,
      Lib.run (State.step 1000) State.init twoHalves = some s ∧ s.usage = 0 ∧ s.charges = 2 ^ 64 := by
  have heval : (Lib.run (State.step 1000) (State.init : State (fun _ : Bool => 0) ℕ) twoHalves).map
      (fun s => (s.usage, s.charges)) = some (0, 2 ^ 64) := by decide +kernel
  obtain ⟨s, hs, heq⟩ := Option.map_eq_some_iff.mp heval
  exact ⟨s, hs, Prod.mk.inj heq⟩

/-- A replaced entry that is still held, an eviction, and a last release. -/
def replaced : List (Action Bool ℕ) :=
  [.insert false 0 600, .insert true 1 300, .release ⟨1, true, 1, 300⟩, .insert false 2 800,
    .release ⟨0, false, 0, 600⟩, .lookup false, .lookup true]

theorem shard_correct_iff_replaced :
    ∃ s : State (fun _ : Bool => 0) ℕ,
      Lib.run (State.step 1000) State.init replaced = some s ∧ s.usage.toNat = s.charges ∧
      Gone s.history s.table.contents ⟨0, false, 0, 600⟩ ∧ InOrder s.history := by
  have hfits : Lib.Along (State.step 1000) Fits (State.init : State (fun _ : Bool => 0) ℕ) replaced := by
    decide +kernel
  have heval : (Lib.run (State.step 1000) (State.init : State (fun _ : Bool => 0) ℕ) replaced).map
      (fun s => (s.charges, s.deleted ⟨0, false, 0, 600⟩)) = some (800, 1) := by decide +kernel
  obtain ⟨s, hs, heq⟩ := Option.map_eq_some_iff.mp heval
  obtain ⟨hcharges, hdeleted⟩ := Prod.mk.inj heq
  obtain ⟨husage, -, -, hgone, -, -, horder⟩ := shard_correct_iff 1000 hfits hs
  exact ⟨s, hs, husage.mpr (by rw [hcharges]; norm_num), (hgone _).2.mp hdeleted, horder⟩

end LRUShard

end Ambar
