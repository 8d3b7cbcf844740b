import Ambar.Lib.Follows
import Ambar.Memory.SkipList

/-!
# Iterators of the skip list

`SkipList::Iterator` (`src/skiplist.hpp`, lines 55–80 and 158–176) over a list that is not being
written. `prev` and `seek_to_last` search from the head, since nodes point forward only.

* `Built.findGreaterOrEqual_node`: what a lookup finds.
* `Built.follows`: the iterator stands at positions of the sorted keys, and each call moves it as
  it would a position of that list.
-/

namespace Ambar

namespace SkipList

variable {K κ : Type*} [LinearOrder κ]

/-- The head stands for no position. -/
def atNode (node : ℕ) : Option ℕ := if node = 0 then none else some node

/-- The calls of the iterator. Its state is the node; no state is left by a call that reads a
    pointer that was never written, or that is made where the source asserts `valid`. -/
def iterator (order : KeyOrder K κ) (s : SkipList K) : Lib.Cursor (Option (Option ℕ)) K K where
  current state := state.bind fun node => node.bind s.key
  seekToFirst _ := s.slots 0 0
  seekToLast _ := (s.findLast s.maxHeight).map atNode
  seek target _ := (s.findGreaterOrEqual order s.maxHeight target).map Prod.fst
  next state := state.bind fun node => node.bind fun n => s.slots n 0
  prev state := state.bind fun node => (node.bind s.key).bind fun key =>
    (s.findLessThan order s.maxHeight key).map atNode

/-- The state stands for a position of the nodes. -/
def StandsAt (nodes : List ℕ) (state : Option (Option ℕ)) (p : Option ℕ) : Prop :=
  state = some (p.bind fun i => nodes[i]?) ∧ ∀ i, p = some i → i < nodes.length

variable {order : KeyOrder K κ} {s : SkipList K} {nodes : List ℕ} {height : ℕ → ℕ} {S : List K}

theorem standsAt_posOf {l : List K} (hlen : nodes.length = l.length) (i : ℕ) :
    StandsAt nodes (some nodes[i]?) (Lib.posOf l i) := by
  unfold Lib.posOf
  split_ifs with hi
  · exact ⟨rfl, fun j hj => by cases hj; omega⟩
  · refine ⟨?_, fun j hj => by cases hj⟩
    rw [List.getElem?_eq_none (by omega)]
    rfl

/-- The node before a position. -/
theorem standsAt_posBefore (hnodup : (0 :: nodes).Nodup) {i : ℕ} (hi : i ≤ nodes.length) :
    StandsAt nodes (some (atNode ((nodes.take i).getLastD 0))) (Lib.posBefore i) := by
  unfold Lib.posBefore
  cases i with
  | zero => exact ⟨rfl, fun j hj => by cases hj⟩
  | succ i =>
    have hlast : (nodes.take (i + 1)).getLastD 0 = nodes[i] := by
      rw [List.take_succ_eq_append_getElem (by omega), List.getLastD_eq_getLast?, List.getLast?_concat]
      rfl
    have hpos : nodes[i] ≠ 0 := fun h0 =>
      (List.nodup_cons.mp hnodup).1 (h0 ▸ List.getElem_mem (by omega))
    rw [if_neg (by omega), Nat.add_sub_cancel, hlast, atNode, if_neg hpos]
    refine ⟨?_, fun j hj => by cases hj; omega⟩
    rw [Option.bind_some, List.getElem?_eq_getElem (by omega)]

namespace Built

theorem length_eq (h : Built order s nodes height S) : nodes.length = S.length := by
  simpa using congrArg List.length h.keys

theorem key_getElem? (h : Built order s nodes height S) (i : ℕ) :
    nodes[i]?.bind s.key = S[i]? := by
  have hi := congrArg (fun l => l[i]?) h.keys
  simp only [List.getElem?_map] at hi
  cases hn : nodes[i]? with
  | none =>
    rw [hn] at hi
    exact (Option.map_eq_none_iff.mp hi.symm).symm
  | some n =>
    rw [hn] at hi
    obtain ⟨k, hk, hkey⟩ := Option.map_eq_some_iff.mp hi.symm
    rw [hk, Option.bind_some, ← hkey]

theorem next_slot (h : Built order s nodes height S) {i : ℕ} (hi : i < nodes.length) :
    s.slots nodes[i] 0 = some nodes[i + 1]? := by
  have hsplit : nodes = nodes.take (i + 1) ++ nodes.drop (i + 1) := (List.take_append_drop _ _).symm
  have hlast : (nodes.take (i + 1)).getLastD 0 = nodes[i] := by
    rw [List.take_succ_eq_append_getElem hi, List.getLastD_eq_getLast?, List.getLast?_concat]
    rfl
  have hchain := h.chain_from hsplit (by decide : 0 < kMaxHeight)
    (Or.inr (by rw [hlast]; exact h.tall _ (List.getElem_mem hi)))
  rw [hlast, above_zero fun n hn => h.tall n (List.drop_subset _ _ hn)] at hchain
  rw [hchain.slot, List.head?_drop]

/-- A search stops where the keys it goes past end. -/
theorem search_at (h : Built order s nodes height S) {goes : K → Bool}
    (hdown : S.Pairwise fun a b => goes b = true → goes a = true) :
    ∃ prev, s.search goes s.maxHeight =
      some ((nodes.take (S.findIdx fun a => !goes a)).getLastD 0,
        nodes[S.findIdx fun a => !goes a]?, prev) := by
  obtain ⟨pre, post, prev, hsplit, hpre, -, hrun, -⟩ := h.search h.keys hdown h.low h.high
  have hidx : (S.findIdx fun a => !goes a) = pre.length := by
    have hlen := congrArg List.length hpre
    rw [List.length_map, List.length_map] at hlen
    rw [hlen, List.takeWhile_eq_take_findIdx_not, List.length_take_of_le List.findIdx_le_length]
  refine ⟨prev, ?_⟩
  rw [hrun, hidx, hsplit, List.take_left, List.getElem?_append_right le_rfl, Nat.sub_self,
    List.head?_eq_getElem?]

/-- What `find_greater_or_equal` returns is null or a node with a key. -/
theorem findGreaterOrEqual_node (h : Built order s nodes height S) (target : K) :
    ∃ node prev, s.findGreaterOrEqual order s.maxHeight target = some (node, prev) ∧
      node.bind s.key = S.find? (fun a => decide (order.rank target ≤ order.rank a)) ∧
      ∀ n, node = some n → ∃ k, s.key n = some k := by
  obtain ⟨prev, hrun⟩ := h.search_at (pairwise_below h.sorted target)
  have hfind : s.findGreaterOrEqual order s.maxHeight target =
      some (nodes[S.findIdx fun a => !decide (order.rank a < order.rank target)]?, prev) := by
    rw [findGreaterOrEqual, compare_eq_rank, hrun]
    rfl
  refine ⟨_, prev, hfind, ?_, fun n hn => h.key_isSome (List.mem_of_getElem? hn)⟩
  have hanswer := (h.answers h.keys h.sorted h.low h.high).greaterOrEqual target
  rw [hfind, Option.map_some] at hanswer
  exact Option.some.inj hanswer

theorem findIdx_not_below (hS : Lib.SortedBy order.rank S) {i : ℕ} (hi : i < S.length) :
    (S.findIdx fun a => !decide (order.rank a < order.rank S[i])) = i := by
  rw [List.findIdx_eq hi]
  refine ⟨by simp, fun j hj => ?_⟩
  simpa using List.pairwise_iff_getElem.mp hS j i (by omega) hi hj

theorem prev_standsAt (h : Built order s nodes height S) {state : Option (Option ℕ)} {i : ℕ}
    (hs : StandsAt nodes state (some i)) :
    StandsAt nodes ((s.iterator order).prev state) (Lib.posBefore i) := by
  obtain ⟨rfl, hi⟩ := hs
  have hi := hi i rfl
  have hiS : i < S.length := h.length_eq ▸ hi
  obtain ⟨prev, hrun⟩ := h.search_at (pairwise_below h.sorted S[i])
  show StandsAt nodes ((nodes[i]?.bind s.key).bind fun key =>
    (s.findLessThan order s.maxHeight key).map atNode) _
  rw [h.key_getElem? i, List.getElem?_eq_getElem hiS, Option.bind_some, findLessThan, compare_eq_rank,
    hrun, findIdx_not_below h.sorted hiS]
  exact standsAt_posBefore h.nodup hi.le

/-- **The iterator** follows the keys in order. -/
theorem follows (h : Built order s nodes height S) :
    Lib.Follows (s.iterator order) (fun target a => decide (order.rank a < order.rank target)) S
      (StandsAt nodes) where
  current := by
    rintro _ p ⟨rfl, -⟩
    cases p with
    | none => rfl
    | some i => exact h.key_getElem? i
  bound := by
    rintro _ i ⟨-, hi⟩
    exact h.length_eq ▸ hi i rfl
  seekToFirst := by
    intro _ _ _
    have hfirst : s.slots 0 0 = some nodes[0]? := by
      have hchain := h.chain 0 (by decide)
      rw [above_zero h.tall] at hchain
      rw [hchain.slot, List.head?_eq_getElem?]
    show StandsAt nodes (s.slots 0 0) _
    rw [hfirst]
    exact standsAt_posOf h.length_eq 0
  seekToLast := by
    intro _ _ _
    obtain ⟨prev, hrun⟩ := h.search_at
      (List.pairwise_of_forall fun _ _ h => h : S.Pairwise fun _ _ => true = true → true = true)
    have hidx : (S.findIdx fun _ => !true) = nodes.length := by
      rw [h.length_eq]
      exact List.findIdx_eq_length.mpr fun _ _ => rfl
    show StandsAt nodes ((s.findLast s.maxHeight).map atNode) _
    rw [findLast, hrun, hidx, Lib.lastPos_eq, ← h.length_eq]
    exact standsAt_posBefore h.nodup le_rfl
  seek := by
    intro _ _ target _
    obtain ⟨prev, hrun⟩ := h.search_at (pairwise_below h.sorted target)
    show StandsAt nodes ((s.findGreaterOrEqual order s.maxHeight target).map Prod.fst) _
    rw [findGreaterOrEqual, compare_eq_rank, hrun]
    exact standsAt_posOf h.length_eq _
  next := by
    rintro _ i ⟨rfl, hi⟩
    have hi := hi i rfl
    show StandsAt nodes (nodes[i]?.bind fun n => s.slots n 0) _
    rw [List.getElem?_eq_getElem hi, Option.bind_some, h.next_slot hi]
    exact standsAt_posOf h.length_eq (i + 1)
  prev hs := h.prev_standsAt hs
  prev_zero hs := h.prev_standsAt hs

end Built

end SkipList

end Ambar
