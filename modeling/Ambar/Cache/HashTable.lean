import Ambar.Lib.Association
import Mathlib.Data.Multiset.Bind

/-!
# The cache's hash table

`HashTable` of the block cache (`src/cache.cpp`, lines 48–106): a map from hashes to chains
of entries that share the hash, told apart by their keys. The table is over any entries with
a key and any hash of keys, so any two keys may collide. That an entry stands in the chain
of its hash and that a chain has no key twice is part of the table's type.

* `HashTable.find_eq_some`: a lookup finds the entry with the key.
* `HashTable.insert_fst`, `HashTable.insert_contents`, `HashTable.mem_insert`: an insertion
  takes out the entry that had the key.
* `HashTable.remove_contents`: a removal takes out one entry.
-/

namespace Ambar

/-- Entries `E` with keys `K`, in chains by the hash of the key. -/
structure HashTable {E H K : Type*} (hash : K → H) (key : E → K) where
  buckets : AList fun _ : H => List E
  hashed : ∀ b ∈ buckets.entries, ∀ e ∈ b.2, hash (key e) = b.1
  distinct : ∀ b ∈ buckets.entries, (b.2.map key).Nodup

namespace HashTable

variable {E H K : Type*} {hash : K → H} {key : E → K}

def empty : HashTable hash key where
  buckets := ∅
  hashed := nofun
  distinct := nofun

/-- All entries of the table. -/
def contents (t : HashTable hash key) : Multiset E :=
  Lib.total (fun _ chain => Multiset.ofList chain) t.buckets

section Chains

variable [DecidableEq H] (t : HashTable hash key)

/-- The entries with a hash. -/
def chain (h : H) : List E := (t.buckets.lookup h).getD []

theorem chain_hashed {h : H} {e : E} (he : e ∈ t.chain h) : hash (key e) = h := by
  unfold chain at he
  cases hl : t.buckets.lookup h with
  | none => simp [hl] at he
  | some c =>
    rw [hl, Option.getD_some] at he
    exact t.hashed ⟨h, c⟩ (AList.mem_lookup_iff.mp hl) e he

theorem chain_distinct (h : H) : ((t.chain h).map key).Nodup := by
  unfold chain
  cases hl : t.buckets.lookup h with
  | none => exact List.nodup_nil
  | some c => exact t.distinct ⟨h, c⟩ (AList.mem_lookup_iff.mp hl)

theorem mem_contents {e : E} : e ∈ t.contents ↔ e ∈ t.chain (hash (key e)) := by
  have hjoin : e ∈ t.contents ↔ ∃ b ∈ t.buckets.entries, e ∈ b.2 := by
    unfold contents Lib.total
    rw [← Multiset.sum_coe, ← Multiset.join, Multiset.mem_join]
    simp
  rw [hjoin]
  constructor
  · intro ⟨⟨h, c⟩, hb, he⟩
    obtain rfl := t.hashed ⟨h, c⟩ hb e he
    rw [chain, AList.mem_lookup_iff.mpr hb]
    exact he
  · intro he
    unfold chain at he
    cases hl : t.buckets.lookup (hash (key e)) with
    | none => simp [hl] at he
    | some c =>
      rw [hl] at he
      exact ⟨⟨_, c⟩, AList.mem_lookup_iff.mp hl, he⟩

/-- A bucket of the table after the chain of a hash was replaced. -/
theorem bucket_setChain {h : H} {c : List E} {b : Sigma fun _ : H => List E}
    (hb : b ∈ (if c = [] then t.buckets.erase h else t.buckets.insert h c).entries) :
    b = ⟨h, c⟩ ∨ b ∈ t.buckets.entries := by
  have hlookup := AList.mem_lookup_iff.mpr hb
  split_ifs at hlookup with hc
  · exact .inr (AList.mem_lookup_iff.mp (Lib.lookup_erase_eq hlookup).2)
  · rcases Lib.lookup_insert_eq hlookup with heq | ⟨-, hold⟩
    · exact .inl heq
    · exact .inr (AList.mem_lookup_iff.mp hold)

/-- The table with another chain for a hash; a hash with no entry has no bucket. -/
def setChain (h : H) (c : List E) (hhashed : ∀ e ∈ c, hash (key e) = h)
    (hdistinct : (c.map key).Nodup) : HashTable hash key where
  buckets := if c = [] then t.buckets.erase h else t.buckets.insert h c
  hashed := fun b hb => by
    rcases t.bucket_setChain hb with rfl | hold
    · exact hhashed
    · exact t.hashed b hold
  distinct := fun b hb => by
    rcases t.bucket_setChain hb with rfl | hold
    · exact hdistinct
    · exact t.distinct b hold

theorem contents_setChain {h : H} {c : List E} {hhashed : ∀ e ∈ c, hash (key e) = h}
    {hdistinct : (c.map key).Nodup} :
    (t.setChain h c hhashed hdistinct).contents + Multiset.ofList (t.chain h) =
      Multiset.ofList c + t.contents := by
  have hold : Lib.total (fun _ chain => Multiset.ofList chain) t.buckets =
      Multiset.ofList (t.chain h) +
        Lib.total (fun _ chain => Multiset.ofList chain) (t.buckets.erase h) := by
    unfold chain
    cases hl : t.buckets.lookup h with
    | none => rw [Lib.erase_eq_self hl, Option.getD_none, Multiset.coe_nil, zero_add]
    | some c' => exact Lib.total_erase _ hl
  have hnew : (t.setChain h c hhashed hdistinct).contents = Multiset.ofList c +
      Lib.total (fun _ chain => Multiset.ofList chain) (t.buckets.erase h) := by
    unfold contents setChain
    dsimp only
    split_ifs with hc
    · rw [hc, Multiset.coe_nil, zero_add]
    · exact Lib.total_insert (fun _ chain => Multiset.ofList chain) h c
  rw [hnew, contents, hold, add_assoc, add_comm (Lib.total _ _)]

end Chains

section Operations

variable [DecidableEq H] [DecidableEq K] (t : HashTable hash key)

/-- `find` (lines 50–58). -/
def find (k : K) : Option E := (t.chain (hash k)).find? (key · = k)

/-- The loop of `insert` over a chain (lines 63–72): the entry takes the place of the one
    with its key, if there is one. -/
def replaceIn (key : E → K) (e : E) : List E → Option (E × List E)
  | [] => none
  | x :: rest =>
    if key x = key e then some (x, e :: rest)
    else (replaceIn key e rest).map fun r => (r.1, x :: r.2)

theorem replaceIn_fst (e : E) (c : List E) :
    (replaceIn key e c).map Prod.fst = c.find? (key · = key e) := by
  induction c with
  | nil => rfl
  | cons x rest ih =>
    unfold replaceIn
    split_ifs with hx
    · simp [hx]
    · simpa [hx, Function.comp_def] using ih

theorem replaceIn_spec {e old : E} {c c' : List E} (h : replaceIn key e c = some (old, c')) :
    c'.map key = c.map key ∧ (old :: c').Perm (e :: c) := by
  induction c generalizing c' with
  | nil => exact nomatch h
  | cons x rest ih =>
    unfold replaceIn at h
    split_ifs at h with hx
    · cases h
      exact ⟨by simp [hx], List.Perm.swap ..⟩
    · obtain ⟨⟨old', c''⟩, hrest, heq⟩ := Option.map_eq_some_iff.mp h
      cases heq
      obtain ⟨hkeys, hperm⟩ := ih hrest
      refine ⟨by simp [hkeys], ?_⟩
      exact (List.Perm.swap ..).trans ((hperm.cons x).trans (List.Perm.swap ..))

theorem replaceIn_hashed {e old : E} {c : List E}
    (h : replaceIn key e (t.chain (hash (key e))) = some (old, c)) :
    ∀ x ∈ c, hash (key x) = hash (key e) := by
  intro x hx
  rcases List.mem_cons.mp ((replaceIn_spec h).2.subset (List.mem_cons_of_mem old hx)) with rfl | hx
  · rfl
  · exact t.chain_hashed hx

theorem cons_distinct {e : E} {c : List E} (hc : (c.map key).Nodup) (h : replaceIn key e c = none) :
    ((e :: c).map key).Nodup := by
  rw [List.map_cons, List.nodup_cons]
  refine ⟨fun hmem => ?_, hc⟩
  obtain ⟨x, hx, heq⟩ := List.mem_map.mp hmem
  have hnone : (replaceIn key e c).map Prod.fst = c.find? (key · = key e) := replaceIn_fst e c
  rw [h, Option.map_none, eq_comm, List.find?_eq_none] at hnone
  exact hnone x hx (decide_eq_true heq)

/-- `insert` (lines 62–77): the entry it replaced, and the table. -/
def insert (e : E) : Option E × HashTable hash key :=
  match h : replaceIn key e (t.chain (hash (key e))) with
  | some (old, c) =>
    (some old, t.setChain (hash (key e)) c (t.replaceIn_hashed h)
      ((replaceIn_spec h).1 ▸ t.chain_distinct _))
  | none =>
    (none, t.setChain (hash (key e)) (e :: t.chain (hash (key e)))
      (List.forall_mem_cons.mpr ⟨rfl, fun _ => t.chain_hashed⟩)
      (cons_distinct (t.chain_distinct _) h))

/-- `remove` (lines 79–91). -/
def remove [DecidableEq E] (e : E) : HashTable hash key :=
  t.setChain (hash (key e)) ((t.chain (hash (key e))).erase e)
    (fun _ hx => t.chain_hashed (List.mem_of_mem_erase hx))
    ((t.chain_distinct _).sublist (List.erase_sublist.map key))

theorem find_eq_some {k : K} {e : E} : t.find k = some e ↔ e ∈ t.contents ∧ key e = k := by
  rw [mem_contents]
  constructor
  · intro h
    obtain rfl : key e = k := by simpa using List.find?_some h
    exact ⟨List.mem_of_find?_eq_some h, rfl⟩
  · rintro ⟨he, rfl⟩
    cases hf : t.find (key e) with
    | none => exact absurd (decide_eq_true rfl) (List.find?_eq_none.mp hf e he)
    | some x =>
      have hx : key x = key e := by simpa using List.find?_some hf
      rw [List.inj_on_of_nodup_map (t.chain_distinct _) (List.mem_of_find?_eq_some hf) he hx]

theorem find_eq_none {k : K} : t.find k = none ↔ ∀ e ∈ t.contents, key e ≠ k := by
  constructor
  · intro h e he hk
    exact nomatch h.symm.trans (t.find_eq_some.mpr ⟨he, hk⟩)
  · intro h
    cases hf : t.find k with
    | none => rfl
    | some e =>
      obtain ⟨he, hk⟩ := t.find_eq_some.mp hf
      exact absurd hk (h e he)

theorem insert_of_some {e old : E} {c : List E}
    (h : replaceIn key e (t.chain (hash (key e))) = some (old, c)) :
    t.insert e = (some old, t.setChain (hash (key e)) c (t.replaceIn_hashed h)
      ((replaceIn_spec h).1 ▸ t.chain_distinct _)) := by
  unfold insert
  split
  · rename_i old' c' h'
    cases h.symm.trans h'
    rfl
  · rename_i h'
    exact nomatch h.symm.trans h'

theorem insert_of_none {e : E} (h : replaceIn key e (t.chain (hash (key e))) = none) :
    t.insert e = (none, t.setChain (hash (key e)) (e :: t.chain (hash (key e)))
      (List.forall_mem_cons.mpr ⟨rfl, fun _ => t.chain_hashed⟩)
      (cons_distinct (t.chain_distinct _) h)) := by
  unfold insert
  split
  · rename_i old' c' h'
    exact nomatch h.symm.trans h'
  · rfl

theorem insert_fst (e : E) : (t.insert e).1 = t.find (key e) := by
  rw [find, ← replaceIn_fst e]
  cases h : replaceIn key e (t.chain (hash (key e))) with
  | some r => rw [t.insert_of_some h]; rfl
  | none => rw [t.insert_of_none h]; rfl

/-- What an insertion takes out and leaves is what there was and the entry. -/
theorem insert_contents (e : E) :
    (t.insert e).2.contents + Multiset.ofList (t.insert e).1.toList = e ::ₘ t.contents := by
  cases h : replaceIn key e (t.chain (hash (key e))) with
  | some r =>
    obtain ⟨old, c⟩ := r
    rw [t.insert_of_some h]
    have hperm : Multiset.ofList c + {old} = {e} + Multiset.ofList (t.chain (hash (key e))) := by
      rw [add_comm]
      exact Multiset.coe_eq_coe.mpr (replaceIn_spec h).2
    refine add_right_cancel (b := Multiset.ofList (t.chain (hash (key e)))) ?_
    rw [add_right_comm, contents_setChain, add_right_comm, Option.toList_some, Multiset.coe_singleton,
      hperm, ← Multiset.singleton_add, add_assoc, add_assoc, add_comm t.contents]
  | none =>
    rw [t.insert_of_none h]
    refine add_right_cancel (b := Multiset.ofList (t.chain (hash (key e)))) ?_
    rw [add_right_comm, contents_setChain, Option.toList_none, Multiset.coe_nil, add_zero,
      ← Multiset.cons_coe, Multiset.cons_add, Multiset.cons_add, add_comm t.contents]

/-- Of the entries with its key, an insertion leaves the new one alone. -/
theorem mem_insert {e x : E} :
    x ∈ (t.insert e).2.contents ↔ x = e ∨ x ∈ t.contents ∧ key x ≠ key e := by
  have hsum := t.insert_contents e
  rw [insert_fst] at hsum
  have hmem : ∀ y, y ∈ (t.insert e).2.contents ∨ t.find (key e) = some y ↔ y = e ∨ y ∈ t.contents := by
    intro y
    rw [← Multiset.mem_cons, ← hsum, Multiset.mem_add, Multiset.mem_coe, Option.mem_toList]
  have hself : e ∈ (t.insert e).2.contents := by
    rcases (hmem e).mpr (.inl rfl) with hin | hold
    · exact hin
    · rw [hold, Option.toList_some, Multiset.coe_singleton, add_comm, Multiset.singleton_add] at hsum
      rw [(Multiset.cons_inj_right e).mp hsum]
      exact (t.find_eq_some.mp hold).1
  constructor
  · intro hx
    by_cases hkey : key x = key e
    · left
      have hfind := (t.insert e).2.find_eq_some.mpr ⟨hx, hkey⟩
      exact Option.some.inj (hfind.symm.trans ((t.insert e).2.find_eq_some.mpr ⟨hself, rfl⟩))
    · rcases (hmem x).mp (.inl hx) with rfl | hold
      · exact absurd rfl hkey
      · exact .inr ⟨hold, hkey⟩
  · rintro (rfl | ⟨hx, hkey⟩)
    · exact hself
    · exact ((hmem x).mpr (.inr hx)).resolve_right fun hold => hkey (t.find_eq_some.mp hold).2

omit [DecidableEq K] in
theorem remove_contents [DecidableEq E] {e : E} (he : e ∈ t.contents) :
    e ::ₘ (t.remove e).contents = t.contents := by
  have hmem : e ∈ t.chain (hash (key e)) := t.mem_contents.mp he
  refine add_right_cancel (b := Multiset.ofList (t.chain (hash (key e)))) ?_
  rw [Multiset.cons_add, remove, contents_setChain, ← Multiset.cons_add, ← Multiset.coe_erase,
    Multiset.cons_erase hmem, add_comm]

end Operations

end HashTable

end Ambar
