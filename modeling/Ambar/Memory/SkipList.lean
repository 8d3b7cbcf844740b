import Ambar.Lib.Chains
import Ambar.Lib.OrderedSet
import Ambar.Lib.Trace

/-!
# The skip list

`src/skiplist.hpp`. Nodes are never moved or removed: an insertion finds the node before the new
one at every level and then makes single stores, each of which a reader may see before the next.
The model makes the stores one by one; a slot of a node holds nothing until it is written, and a
search that reads such a slot has no answer.

Results:

* `Linked.descend`: a search ends, reads only written slots and stops between the keys that lie
  before its target and the others, from whatever height it starts.
* `Inserting.link`, `Inserting.publish`: what each store of an insertion keeps.
* `Built.insert`: insertions build a list whose chains are the keys in order and, at each level,
  a part of the chain below.
* `search_during_insert`: between any two stores of an insertion the searches answer for the keys
  with or without the new one.
-/

namespace Ambar

/-- The comparator of the list and the order that it stands for. -/
structure KeyOrder (K κ : Type*) [LinearOrder κ] where
  compare : K → K → ℤ
  rank : K → κ
  compare_lt : ∀ a b, compare a b < 0 ↔ rank a < rank b

/-- A list: node `0` is the head, node `n + 1` holds the key at `n`. -/
structure SkipList (K : Type*) where
  keys : List K
  slots : Lib.Slots
  maxHeight : ℕ

namespace SkipList

variable {K κ : Type*} [LinearOrder κ]

def kMaxHeight : ℕ := 12

def kBranching : ℕ := 4

/-- The constructor (lines 238–244): the head points nowhere at every level. -/
def new : SkipList K := ⟨[], fun n level => if n = 0 ∧ level < kMaxHeight then some none else none, 1⟩

/-- The key of a node; the head has none that is ever compared. -/
def key (s : SkipList K) : ℕ → Option K
  | 0 => none
  | n + 1 => s.keys[n]?

/-- The loop of `random_height`; `draws` are the next numbers of the generator. -/
def randomHeightLoop (draws : ℕ → ℕ) : (turns height : ℕ) → ℕ
  | 0, height => height
  | turns + 1, height =>
    if height < kMaxHeight ∧ draws (height - 1) % kBranching = 0 then
      randomHeightLoop draws turns (height + 1)
    else height

/-- `random_height` (lines 178–184). -/
def randomHeight (draws : ℕ → ℕ) : ℕ := randomHeightLoop draws kMaxHeight 1

/-! ## Searching -/

/-- Whether the walk goes on to a node: not to null, and by its key elsewhere. -/
def goesTo (s : SkipList K) (goes : K → Bool) : Option ℕ → Option Bool
  | none => some false
  | some n => (s.key n).map goes

/-- The loop that `find_greater_or_equal`, `find_less_than` and `find_last` share: from a node, to
    the right while `goes`, else down. The node where it stops, the one after it, and `prev`. -/
def descend (s : SkipList K) (goes : K → Bool) :
    (fuel node level : ℕ) → (prev : ℕ → Option ℕ) → Option (ℕ × Option ℕ × (ℕ → Option ℕ))
  | 0, _, _, _ => none
  | fuel + 1, node, level, prev =>
    (s.slots node level).bind fun next => (s.goesTo goes next).bind fun right =>
      if right then s.descend goes fuel (next.getD 0) level prev
      else
        let prev := Function.update prev level (some node)
        if level = 0 then some (node, next, prev) else s.descend goes fuel node (level - 1) prev

/-- A search from the head at the level below `top`, the value read of `max_height_`. -/
def search (s : SkipList K) (goes : K → Bool) (top : ℕ) :
    Option (ℕ × Option ℕ × (ℕ → Option ℕ)) :=
  s.descend goes (s.keys.length + top + 1) 0 (top - 1) fun _ => none

/-- `find_greater_or_equal` (lines 186–203), with the `prev` it fills in. -/
def findGreaterOrEqual (order : KeyOrder K κ) (s : SkipList K) (top : ℕ) (key : K) :
    Option (Option ℕ × (ℕ → Option ℕ)) :=
  (s.search (fun k => decide (order.compare k key < 0)) top).map Prod.snd

/-- `find_less_than` (lines 205–219). -/
def findLessThan (order : KeyOrder K κ) (s : SkipList K) (top : ℕ) (key : K) : Option ℕ :=
  (s.search (fun k => decide (order.compare k key < 0)) top).map Prod.fst

/-- `find_last` (lines 221–236). -/
def findLast (s : SkipList K) (top : ℕ) : Option ℕ := (s.search (fun _ => true) top).map Prod.fst

/-! ## Inserting -/

/-- The single stores of an insertion. -/
inductive Write (K : Type*) where
  /-- `max_height_.store` -/
  | raise (height : ℕ)
  /-- `new_node`: the key is there, the pointers are not. -/
  | create (key : K)
  /-- `node->nobarrier_set_next(i, prev[i]->nobarrier_next(i))` -/
  | link (node level : ℕ) (prev : Option ℕ)
  /-- `prev[i]->set_next(i, node)` -/
  | publish (prev : Option ℕ) (level node : ℕ)

/-- A store is made; there is no state after one through an element of `prev` never filled in, or
    of a pointer read where there is none. -/
def Write.apply (s : SkipList K) : Write K → Option (SkipList K)
  | .raise height => some { s with maxHeight := height }
  | .create key => some { s with keys := s.keys ++ [key] }
  | .link node level prev => prev.bind fun p => (s.slots p level).map fun next =>
      { s with slots := s.slots.write node level next }
  | .publish prev level node => prev.map fun p =>
      { s with slots := s.slots.write p level (some node) }

/-- The stores of one level of the loop (lines 269–274). -/
def levelWrites (node : ℕ) (prev : ℕ → Option ℕ) (level : ℕ) : List (Write K) :=
  [.link node level (prev level), .publish (prev level) level node]

/-- The stores of `insert` up to `new_node` (lines 256–268). -/
def firstWrites (s : SkipList K) (key : K) (height : ℕ) : List (Write K) :=
  (if s.maxHeight < height then [.raise height] else []) ++ [.create key]

/-- The stores of `insert` (lines 246–275) for a height, in order. -/
def insertWrites (order : KeyOrder K κ) (s : SkipList K) (key : K) (height : ℕ) :
    Option (List (Write K)) :=
  (s.findGreaterOrEqual order s.maxHeight key).map fun found =>
    let prev := fun i => if s.maxHeight ≤ i then some 0 else found.2 i
    s.firstWrites key height ++ (List.range height).flatMap (levelWrites (s.keys.length + 1) prev)

/-- `insert` (lines 246–275). -/
def insert (order : KeyOrder K κ) (s : SkipList K) (key : K) (draws : ℕ → ℕ) : Option (SkipList K) :=
  (s.insertWrites order key (randomHeight draws)).bind (Lib.run Write.apply s)

/-! ## Heights -/

theorem randomHeightLoop_bounds (draws : ℕ → ℕ) : ∀ {turns height : ℕ}, height ≤ kMaxHeight →
    height ≤ randomHeightLoop draws turns height ∧
      randomHeightLoop draws turns height ≤ kMaxHeight := by
  intro turns
  induction turns with
  | zero => exact fun h => ⟨le_rfl, h⟩
  | succ turns ih =>
    intro height h
    rw [randomHeightLoop]
    split_ifs with hmore
    · obtain ⟨h1, h2⟩ := @ih (height + 1) (by omega)
      exact ⟨by omega, h2⟩
    · exact ⟨le_rfl, h⟩

theorem randomHeight_bounds (draws : ℕ → ℕ) :
    1 ≤ randomHeight draws ∧ randomHeight draws ≤ kMaxHeight :=
  randomHeightLoop_bounds draws (by decide)

/-! ## Keys before a place -/

/-- What a walk does not reach it would not go to. -/
theorem dropWhile_stops {goes : K → Bool} {S : List K}
    (hdown : S.Pairwise fun a b => goes b = true → goes a = true) {k : K}
    (hk : k ∈ S.dropWhile goes) : goes k = false := by
  have hrest := hdown.sublist (List.dropWhile_sublist goes)
  cases hd : S.dropWhile goes with
  | nil => simp [hd] at hk
  | cons a rest =>
    have ha : goes a = false := by
      have := List.head_dropWhile_not goes (l := S) (by simp [hd])
      simpa [hd] using this
    rw [hd] at hk hrest
    rcases List.mem_cons.mp hk with rfl | hk
    · exact ha
    · refine Bool.eq_false_iff.mpr fun hgoes => ?_
      rw [(List.pairwise_cons.mp hrest).1 k hk hgoes] at ha
      cases ha

theorem takeWhile_eq_filter {goes : K → Bool} {S : List K}
    (hdown : S.Pairwise fun a b => goes b = true → goes a = true) :
    S.takeWhile goes = S.filter goes := by
  conv_rhs => rw [← List.takeWhile_append_dropWhile (p := goes) (l := S), List.filter_append]
  rw [List.filter_eq_self.mpr fun k hk => List.mem_takeWhile_imp hk,
    List.filter_eq_nil_iff.mpr fun k hk => by rw [dropWhile_stops hdown hk]; decide, List.append_nil]

/-- The keys below another come first. -/
theorem pairwise_below {order : KeyOrder K κ} {S : List K} (hS : Lib.SortedBy order.rank S) (key : K) :
    S.Pairwise fun a b => decide (order.rank b < order.rank key) = true →
      decide (order.rank a < order.rank key) = true :=
  hS.imp fun hab hb => decide_eq_true (hab.trans (of_decide_eq_true hb))

theorem compare_eq_rank (order : KeyOrder K κ) (key : K) :
    (fun k => decide (order.compare k key < 0)) =
      fun k => decide (order.rank k < order.rank key) :=
  funext fun k => decide_eq_decide.mpr (order.compare_lt k key)

/-! ## Lists whose chains belong together -/

/-- The nodes taller than a level. -/
def above (height : ℕ → ℕ) (level : ℕ) (nodes : List ℕ) : List ℕ :=
  nodes.filter fun n => decide (level < height n)

theorem above_append (height : ℕ → ℕ) (level : ℕ) (a b : List ℕ) :
    above height level (a ++ b) = above height level a ++ above height level b :=
  List.filter_append a b

theorem above_zero {height : ℕ → ℕ} {nodes : List ℕ} (h : ∀ n ∈ nodes, 0 < height n) :
    above height 0 nodes = nodes :=
  List.filter_eq_self.mpr fun n hn => decide_eq_true (h n hn)

theorem above_congr {height height' : ℕ → ℕ} {nodes : List ℕ} (level : ℕ)
    (h : ∀ n ∈ nodes, height n = height' n) : above height level nodes = above height' level nodes :=
  List.filter_congr fun n hn => by rw [h n hn]

theorem above_sublist (height : ℕ → ℕ) (level : ℕ) (nodes : List ℕ) :
    (above height level nodes).Sublist nodes :=
  List.filter_sublist

/-- Each chain is a part of the one below it. -/
theorem above_succ_sublist (height : ℕ → ℕ) (level : ℕ) (nodes : List ℕ) :
    (above height (level + 1) nodes).Sublist (above height level nodes) := by
  refine List.monotone_filter_right nodes fun n hn => ?_
  simp only [decide_eq_true_eq] at hn ⊢
  omega

/-- The chains: the nodes in order, and at each level those that are tall enough. -/
structure Linked (s : SkipList K) (nodes : List ℕ) (height : ℕ → ℕ) : Prop where
  chain : ∀ level < kMaxHeight, Lib.Chain s.slots level 0 (above height level nodes)
  nodup : (0 :: nodes).Nodup
  tall : ∀ n ∈ nodes, 0 < height n
  allocated : ∀ n ∈ nodes, n ≤ s.keys.length

theorem linked_new : (new : SkipList K).Linked [] fun _ => 0 where
  chain level hlevel := if_pos ⟨rfl, hlevel⟩
  nodup := by simp
  tall := by simp
  allocated := by simp

namespace Linked

variable {s : SkipList K} {nodes : List ℕ} {height : ℕ → ℕ}

theorem pos (h : Linked s nodes height) {n : ℕ} (hn : n ∈ nodes) : 0 < n := by
  have : n ≠ 0 := fun h0 => (List.nodup_cons.mp h.nodup).1 (h0 ▸ hn)
  omega

theorem key_isSome (h : Linked s nodes height) {n : ℕ} (hn : n ∈ nodes) : ∃ k, s.key n = some k := by
  have hpos := h.pos hn
  have hle := h.allocated n hn
  obtain ⟨i, rfl⟩ : ∃ i, n = i + 1 := ⟨n - 1, by omega⟩
  exact ⟨s.keys[i], List.getElem?_eq_getElem (by omega)⟩

theorem length_le (h : Linked s nodes height) : nodes.length ≤ s.keys.length := by
  have hsub : nodes.toFinset ⊆ Finset.Icc 1 s.keys.length := by
    intro n hn
    have hn := List.mem_toFinset.mp hn
    exact Finset.mem_Icc.mpr ⟨h.pos hn, h.allocated n hn⟩
  have hcard := Finset.card_le_card hsub
  rwa [List.toFinset_card_of_nodup (List.nodup_cons.mp h.nodup).2, Nat.card_Icc,
    Nat.add_sub_cancel] at hcard

/-- From a node as tall as the level, the chain of the level goes on with the nodes after it. -/
theorem chain_from (h : Linked s nodes height) {a b : List ℕ} (hab : nodes = a ++ b) {level : ℕ}
    (hlevel : level < kMaxHeight) (ha : a = [] ∨ level < height (a.getLastD 0)) :
    Lib.Chain s.slots level (a.getLastD 0) (above height level b) := by
  have hchain := h.chain level hlevel
  rw [hab, above_append] at hchain
  have hlast : (above height level a).getLastD 0 = a.getLastD 0 :=
    Lib.getLastD_filter (ha.imp_right fun h => decide_eq_true h)
  rw [← hlast]
  exact hchain.drop

/-- **A search**, from a node before the place where it ends. It comes to the last of the nodes to
    which it goes, and leaves in `prev` the last one of each level. -/
theorem descend (h : Linked s nodes height) {goes : K → Bool} {pre post : List ℕ}
    (hsplit : nodes = pre ++ post) (hpre : ∀ n ∈ pre, s.goesTo goes (some n) = some true)
    (hpost : ∀ n ∈ post, s.goesTo goes (some n) = some false) :
    ∀ (fuel level : ℕ) (before rest : List ℕ) (prev : ℕ → Option ℕ), pre = before ++ rest →
      level < kMaxHeight → before = [] ∨ level < height (before.getLastD 0) →
      rest.length + level < fuel →
      ∃ prev', s.descend goes fuel (before.getLastD 0) level prev =
          some (pre.getLastD 0, post.head?, prev') ∧
        (∀ l ≤ level, prev' l = some ((above height l pre).getLastD 0)) ∧
        ∀ l, level < l → prev' l = prev l := by
  intro fuel
  -- each turn goes to the right or down, and `rest.length + level` counts both
  induction fuel with
  | zero => exact fun _ _ _ _ _ _ _ hfuel => absurd hfuel (by omega)
  | succ fuel ih =>
    intro level before rest prev hparts hlevel hbefore hfuel
    have hchain := h.chain_from (b := rest ++ post) (by rw [hsplit, hparts, List.append_assoc])
      hlevel hbefore
    rw [above_append] at hchain
    rw [SkipList.descend, hchain.slot, Option.bind_some]
    cases hnext : above height level rest with
    | cons n more =>
      -- a node of `rest` is tall enough: to the right
      obtain ⟨r₁, r₂, rfl, -, htall, -⟩ := List.filter_eq_cons_iff.mp hnext
      have hmem : n ∈ pre := by rw [hparts]; simp
      have hlast : (before ++ (r₁ ++ [n])).getLastD 0 = n := by
        rw [← List.append_assoc, List.getLastD_eq_getLast?, List.getLast?_concat, Option.getD_some]
      rw [List.cons_append, List.head?_cons, hpre n hmem, Option.bind_some, if_pos rfl, Option.getD_some]
      have hgo := ih level (before ++ (r₁ ++ [n])) r₂ prev (by rw [hparts]; simp) hlevel
        (Or.inr (by rw [hlast]; exact of_decide_eq_true htall)) (by simp at hfuel; omega)
      rwa [hlast] at hgo
    | nil =>
      -- the next node of the level, if there is one, lies in `post`: down
      have hstop : s.goesTo goes ([] ++ above height level post).head? = some false := by
        cases hp : above height level post with
        | nil => rfl
        | cons n more =>
          exact hpost n ((above_sublist height level post).subset (hp ▸ List.mem_cons_self))
      have hlast : (above height level pre).getLastD 0 = before.getLastD 0 := by
        rw [hparts, above_append, hnext, List.append_nil]
        exact Lib.getLastD_filter (hbefore.imp_right fun h => decide_eq_true h)
      rw [hstop, Option.bind_some, if_neg (by decide)]
      by_cases hzero : level = 0
      · subst hzero
        have hrest : rest = [] := by
          rwa [above_zero fun n hn => h.tall n (by rw [hsplit, hparts]; simp [hn])] at hnext
        have hpost0 : above height 0 post = post :=
          above_zero fun n hn => h.tall n (by rw [hsplit]; simp [hn])
        rw [hrest, List.append_nil] at hparts
        subst hparts
        refine ⟨Function.update prev 0 (some (pre.getLastD 0)), ?_, fun l hl => ?_, fun l hl => ?_⟩
        · simp only [if_pos, List.nil_append, hpost0]
        · obtain rfl : l = 0 := by omega
          rw [Function.update_self, hlast]
        · exact Function.update_of_ne (by omega) _ _
      · obtain ⟨prev', hrun, hlow, hhigh⟩ := ih (level - 1) before rest
          (Function.update prev level (some (before.getLastD 0))) hparts (by omega)
          (hbefore.imp_right fun h => by omega) (by omega)
        refine ⟨prev', ?_, fun l hl => ?_, fun l hl => ?_⟩
        · simp only [if_neg hzero, hrun]
        · by_cases heq : l = level
          · rw [hhigh l (by omega), heq, Function.update_self, hlast]
          · exact hlow l (by omega)
        · rw [hhigh l (by omega), Function.update_of_ne (by omega)]

/-- A search for keys: it ends between those to which it goes and the others. -/
theorem search (h : Linked s nodes height) {goes : K → Bool} {S : List K}
    (hkeys : nodes.map s.key = S.map some)
    (hdown : S.Pairwise fun a b => goes b = true → goes a = true) {top : ℕ} (htop : 1 ≤ top)
    (hmax : top ≤ kMaxHeight) :
    ∃ pre post prev, nodes = pre ++ post ∧ pre.map s.key = (S.takeWhile goes).map some ∧
      post.map s.key = (S.dropWhile goes).map some ∧
      s.search goes top = some (pre.getLastD 0, post.head?, prev) ∧
      ∀ l < top, prev l = some ((above height l pre).getLastD 0) := by
  rw [← List.takeWhile_append_dropWhile (p := goes) (l := S), List.map_append] at hkeys
  obtain ⟨pre, post, hsplit, hpre, hpost⟩ := List.map_eq_append_iff.mp hkeys
  have hgoes : ∀ n ∈ pre, s.goesTo goes (some n) = some true := by
    intro n hn
    obtain ⟨k, hk, hkey⟩ := List.mem_map.mp (hpre ▸ List.mem_map_of_mem hn)
    rw [goesTo, ← hkey, Option.map_some, List.mem_takeWhile_imp hk]
  have hstops : ∀ n ∈ post, s.goesTo goes (some n) = some false := by
    intro n hn
    obtain ⟨k, hk, hkey⟩ := List.mem_map.mp (hpost ▸ List.mem_map_of_mem hn)
    rw [goesTo, ← hkey, Option.map_some, dropWhile_stops hdown hk]
  have hlength : pre.length ≤ s.keys.length := by
    have := h.length_le
    rw [hsplit, List.length_append] at this
    omega
  obtain ⟨prev, hrun, hprev, -⟩ := h.descend hsplit hgoes hstops (s.keys.length + top + 1) (top - 1)
    [] pre (fun _ => none) rfl (by omega) (Or.inl rfl) (by omega)
  exact ⟨pre, post, prev, hsplit, hpre, hpost, hrun, fun l hl => hprev l (by omega)⟩

end Linked

/-- The searches of a list from `top` answer for the keys `S`. -/
structure Answers (order : KeyOrder K κ) (s : SkipList K) (top : ℕ) (S : List K) : Prop where
  greaterOrEqual : ∀ k, (s.findGreaterOrEqual order top k).map (fun found => found.1.bind s.key) =
    some (S.find? fun a => decide (order.rank k ≤ order.rank a))
  lessThan : ∀ k, (s.findLessThan order top k).map s.key =
    some (S.filter fun a => decide (order.rank a < order.rank k)).getLast?
  last : (s.findLast top).map s.key = some S.getLast?

theorem key_getLastD {s : SkipList K} {nodes : List ℕ} {S : List K}
    (h : nodes.map s.key = S.map some) : s.key (nodes.getLastD 0) = S.getLast? := by
  have hlast := congrArg List.getLast? h
  rw [List.getLast?_map, List.getLast?_map] at hlast
  rw [List.getLastD_eq_getLast?]
  cases hn : nodes.getLast? with
  | none =>
    rw [hn, Option.map_none] at hlast
    exact (Option.map_eq_none_iff.mp hlast.symm).symm
  | some n =>
    rw [hn, Option.map_some] at hlast
    obtain ⟨k, hk, hkey⟩ := Option.map_eq_some_iff.mp hlast.symm
    rw [hk, hkey]
    rfl

theorem key_head? {s : SkipList K} {nodes : List ℕ} {S : List K}
    (h : nodes.map s.key = S.map some) : nodes.head?.bind s.key = S.head? := by
  cases nodes with
  | nil =>
    cases S with
    | nil => rfl
    | cons k rest => cases h
  | cons n more =>
    cases S with
    | nil => cases h
    | cons k rest => exact (List.cons.inj h).1

/-- **Searches answer** on every list whose chains belong together, from every height. -/
theorem Linked.answers {s : SkipList K} {nodes : List ℕ} {height : ℕ → ℕ} (h : Linked s nodes height)
    {order : KeyOrder K κ} {S : List K} (hkeys : nodes.map s.key = S.map some)
    (hS : Lib.SortedBy order.rank S) {top : ℕ} (htop : 1 ≤ top) (hmax : top ≤ kMaxHeight) :
    s.Answers order top S where
  greaterOrEqual k := by
    obtain ⟨pre, post, prev, -, -, hpost, hrun, -⟩ := h.search hkeys (pairwise_below hS k) htop hmax
    rw [findGreaterOrEqual, compare_eq_rank, hrun]
    show some (post.head?.bind s.key) = _
    rw [key_head? hpost, List.find?_eq_head?_dropWhile_not]
    simp only [← not_lt, decide_not, Bool.not_not]
  lessThan k := by
    obtain ⟨pre, post, prev, -, hpre, -, hrun, -⟩ := h.search hkeys (pairwise_below hS k) htop hmax
    rw [findLessThan, compare_eq_rank, hrun]
    show some (s.key (pre.getLastD 0)) = _
    rw [key_getLastD hpre, takeWhile_eq_filter (pairwise_below hS k)]
  last := by
    have hall : S.Pairwise fun _ _ => true = true → true = true :=
      List.pairwise_of_forall fun _ _ h => h
    obtain ⟨pre, post, prev, -, hpre, -, hrun, -⟩ := h.search hkeys hall htop hmax
    rw [findLast, hrun]
    show some (s.key (pre.getLastD 0)) = _
    rw [key_getLastD hpre, List.takeWhile_eq_self_iff.mpr fun _ _ => rfl]

/-! ## The stores of an insertion -/

/-- The state within an insertion: the new node is published below `level`, and `linked` says
    whether its pointer at `level` is written. -/
structure Inserting (s : SkipList K) (pre post : List ℕ) (height : ℕ → ℕ) (key : K) (top level : ℕ)
    (linked : Bool) (t : SkipList K) : Prop where
  keys : t.keys = s.keys ++ [key]
  maxHeight : t.maxHeight = top
  published : ∀ l < level,
    Lib.Chain t.slots l 0 (above height l pre ++ (s.keys.length + 1) :: above height l post)
  waiting : ∀ l, level ≤ l → l < kMaxHeight → Lib.Chain t.slots l 0 (above height l (pre ++ post))
  own : linked = true → t.slots (s.keys.length + 1) level =
    t.slots ((above height level pre).getLastD 0) level

section Inserting

variable {s t : SkipList K} {pre post : List ℕ} {height : ℕ → ℕ} {key : K} {top level : ℕ}

theorem Linked.not_new (h : Linked s (pre ++ post) height) : s.keys.length + 1 ∉ 0 :: (pre ++ post) := by
  intro hmem
  rcases List.mem_cons.mp hmem with h0 | hmem
  · omega
  · have := h.allocated _ hmem
    omega

theorem Linked.not_new_above (h : Linked s (pre ++ post) height) (l : ℕ) :
    s.keys.length + 1 ∉ 0 :: (above height l pre ++ above height l post) := by
  rw [← above_append]
  exact fun hmem => h.not_new (((above_sublist height l (pre ++ post)).cons_cons 0).subset hmem)

theorem Linked.last_ne_new (h : Linked s (pre ++ post) height) (l : ℕ) :
    (above height l pre).getLastD 0 ≠ s.keys.length + 1 := by
  intro heq
  refine h.not_new_above l ?_
  rw [← List.cons_append, ← heq]
  exact List.mem_append_left _ (Lib.getLastD_mem 0 _)

/-- The new node's pointer of the level is written. -/
theorem Inserting.link (h : Linked s (pre ++ post) height)
    (ht : Inserting s pre post height key top level false t) (hlevel : level < kMaxHeight) :
    ∃ t', Write.apply t (.link (s.keys.length + 1) level
        (some ((above height level pre).getLastD 0))) = some t' ∧
      Inserting s pre post height key top level true t' := by
  have hchain := ht.waiting level le_rfl hlevel
  rw [above_append] at hchain
  have hslot := hchain.drop.slot
  refine ⟨{ t with slots := t.slots.write (s.keys.length + 1) level (above height level post).head? },
    ?_, ht.keys, ht.maxHeight, fun l hl => ?_, fun l hl hlt => ?_, fun _ => ?_⟩
  · rw [Write.apply, Option.bind_some, hslot, Option.map_some]
  · refine (ht.published l hl).congr fun m _ => ?_
    exact Lib.Slots.write_of_ne _ _ (Or.inr (by omega))
  · refine (ht.waiting l hl hlt).congr fun m hm => ?_
    refine Lib.Slots.write_of_ne _ _ (Or.inl fun heq => h.not_new_above l ?_)
    rwa [heq, above_append] at hm
  · show Lib.Slots.write _ _ _ _ _ _ = Lib.Slots.write _ _ _ _ _ _
    rw [Lib.Slots.write_self, Lib.Slots.write_of_ne _ _ (Or.inl (h.last_ne_new level)), hslot]

/-- The new node is published at the level. -/
theorem Inserting.publish (h : Linked s (pre ++ post) height)
    (ht : Inserting s pre post height key top level true t) (hlevel : level < kMaxHeight) :
    ∃ t', Write.apply t (.publish (some ((above height level pre).getLastD 0)) level
        (s.keys.length + 1)) = some t' ∧
      Inserting s pre post height key top (level + 1) false t' := by
  have hnodup : (0 :: above height level (pre ++ post)).Nodup :=
    h.nodup.sublist ((above_sublist height level _).cons_cons 0)
  have hchain := ht.waiting level le_rfl hlevel
  rw [above_append] at hchain hnodup
  refine ⟨_, rfl, ht.keys, ht.maxHeight, fun l hl => ?_, fun l hl hlt => ?_, fun hfalse => by cases hfalse⟩
  · rcases Nat.lt_succ_iff_lt_or_eq.mp hl with hl | rfl
    · refine (ht.published l hl).congr fun m _ => ?_
      exact Lib.Slots.write_of_ne _ _ (Or.inr (by omega))
    · refine hchain.splice hnodup (h.not_new_above l) ?_ (Lib.Slots.write_self _ _ _ _) fun m _ hm => ?_
      · show Lib.Slots.write _ _ _ _ _ _ = _
        rw [Lib.Slots.write_of_ne _ _ (Or.inl (h.last_ne_new l).symm), ht.own rfl]
      · exact Lib.Slots.write_of_ne _ _ (Or.inl hm)
  · refine (ht.waiting l (by omega) hlt).congr fun m _ => ?_
    exact Lib.Slots.write_of_ne _ _ (Or.inr (by omega))

/-- **The stores of the levels**, up to any of them. -/
theorem Inserting.run_take (h : Linked s (pre ++ post) height) (prev : ℕ → Option ℕ) (count : ℕ) :
    ∀ {level : ℕ} {t : SkipList K}, Inserting s pre post height key top level false t →
      level + count ≤ kMaxHeight →
      (∀ l, level ≤ l → l < level + count → prev l = some ((above height l pre).getLastD 0)) →
      ∀ n, ∃ t' level' linked, Lib.run Write.apply t (((List.range' level count).flatMap
          (levelWrites (s.keys.length + 1) prev)).take n) = some t' ∧
        Inserting s pre post height key top level' linked t' ∧
        level' ≤ level + count ∧ (2 * count ≤ n → level' = level + count ∧ linked = false) := by
  induction count with
  | zero =>
    intro level t ht _ _ n
    exact ⟨t, level, false, by simp, ht, le_rfl, fun _ => ⟨rfl, rfl⟩⟩
  | succ count ih =>
    intro level t ht hmax hprev n
    obtain ⟨t₁, happly₁, ht₁⟩ := ht.link h (by omega)
    obtain ⟨t₂, happly₂, ht₂⟩ := ht₁.publish h (by omega)
    rw [List.range'_succ, List.flatMap_cons, levelWrites, hprev level le_rfl (by omega)]
    -- none of the two stores of the level, the first, or both
    rcases n with - | - | n
    · exact ⟨t, level, false, rfl, ht, by omega, fun hn => absurd hn (by omega)⟩
    · refine ⟨t₁, level, true, ?_, ht₁, by omega, fun hn => absurd hn (by omega)⟩
      rw [List.cons_append, List.take_succ_cons, List.take_zero, Lib.run_cons, happly₁]
      rfl
    · obtain ⟨t', level', linked, hrun, ht', hle, hall⟩ := ih ht₂ (by omega)
        (fun l hl hlt => hprev l (by omega) (by omega)) n
      refine ⟨t', level', linked, ?_, ht', by omega, fun hn => ?_⟩
      · rw [List.cons_append, List.cons_append, List.nil_append, List.take_succ_cons,
          List.take_succ_cons, Lib.run_cons, happly₁, Option.bind_some, Lib.run_cons, happly₂,
          Option.bind_some, hrun]
      · obtain ⟨h1, h2⟩ := hall (by omega)
        exact ⟨by omega, h2⟩

/-- A node that holds a key keeps it. -/
theorem key_of_append (hkeys : t.keys = s.keys ++ [key]) {n : ℕ} (hn : n ≤ s.keys.length) :
    t.key n = s.key n := by
  cases n with
  | zero => rfl
  | succ n =>
    show t.keys[n]? = s.keys[n]?
    rw [hkeys, List.getElem?_append_left hn]

theorem key_new (hkeys : t.keys = s.keys ++ [key]) : t.key (s.keys.length + 1) = some key := by
  show t.keys[s.keys.length]? = some key
  rw [hkeys, List.getElem?_concat_length]

theorem Linked.map_key (h : Linked s (pre ++ post) height) (hkeys : t.keys = s.keys ++ [key]) :
    pre.map t.key = pre.map s.key ∧ post.map t.key = post.map s.key := by
  constructor
  · exact List.map_congr_left fun n hn => key_of_append hkeys (h.allocated n (List.mem_append_left _ hn))
  · exact List.map_congr_left fun n hn => key_of_append hkeys (h.allocated n (List.mem_append_right _ hn))

/-- Before its first publication the new node is in no chain. -/
theorem Inserting.linked_without (h : Linked s (pre ++ post) height) {linked : Bool}
    (ht : Inserting s pre post height key top 0 linked t) : Linked t (pre ++ post) height where
  chain l hl := ht.waiting l (Nat.zero_le l) hl
  nodup := h.nodup
  tall := h.tall
  allocated n hn := by
    have := h.allocated n hn
    rw [ht.keys, List.length_append]
    omega

/-- Afterwards it is a node that reaches as high as it is published. -/
theorem Inserting.linked_with (h : Linked s (pre ++ post) height) {linked : Bool}
    (ht : Inserting s pre post height key top level linked t) (hlevel : 0 < level) :
    Linked t (pre ++ (s.keys.length + 1) :: post)
      (Function.update height (s.keys.length + 1) level) := by
  set x := s.keys.length + 1 with hx
  have hother : ∀ n ∈ pre ++ post, Function.update height x level n = height n := by
    intro n hn
    have := h.allocated n hn
    exact Function.update_of_ne (by omega) _ _
  have hpre : ∀ l, above (Function.update height x level) l pre = above height l pre := fun l =>
    above_congr l fun n hn => hother n (List.mem_append_left _ hn)
  have hpost : ∀ l, above (Function.update height x level) l post = above height l post := fun l =>
    above_congr l fun n hn => hother n (List.mem_append_right _ hn)
  have hmem : ∀ n ∈ pre ++ x :: post, n = x ∨ n ∈ pre ++ post := fun n hn => by
    rcases List.mem_append.mp hn with hn | hn
    · exact Or.inr (List.mem_append_left _ hn)
    · exact (List.mem_cons.mp hn).imp_right (List.mem_append_right _)
  refine ⟨fun l hl => ?_, ?_, fun n hn => ?_, fun n hn => ?_⟩
  · rw [above_append, hpre, show x :: post = [x] ++ post from rfl, above_append, hpost]
    by_cases hlow : l < level
    · rw [show above (Function.update height x level) l [x] = [x] from
        List.filter_cons_of_pos (by simpa using hlow)]
      exact ht.published l hlow
    · rw [show above (Function.update height x level) l [x] = [] from
        List.filter_cons_of_neg (by simpa using hlow), List.nil_append, ← above_append]
      exact ht.waiting l (by omega) hl
  · have hperm : (x :: 0 :: (pre ++ post)).Perm (0 :: (pre ++ x :: post)) :=
      (List.Perm.swap 0 x _).trans (List.perm_middle.symm.cons 0)
    exact hperm.nodup (List.nodup_cons.mpr ⟨h.not_new, h.nodup⟩)
  · rcases hmem n hn with rfl | hn
    · rwa [Function.update_self]
    · rw [hother n hn]
      exact h.tall n hn
  · rw [ht.keys, List.length_append, List.length_singleton]
    rcases hmem n hn with rfl | hn
    · exact le_rfl
    · have := h.allocated n hn
      omega

end Inserting

/-! ## Lists built by insertions -/

/-- Between insertions: the chains hold the keys in order, and no node is taller than the list. -/
structure Built (order : KeyOrder K κ) (s : SkipList K) (nodes : List ℕ) (height : ℕ → ℕ)
    (S : List K) : Prop extends Linked s nodes height where
  keys : nodes.map s.key = S.map some
  sorted : Lib.SortedBy order.rank S
  short : ∀ n ∈ nodes, height n ≤ s.maxHeight
  low : 1 ≤ s.maxHeight
  high : s.maxHeight ≤ kMaxHeight

theorem built_new (order : KeyOrder K κ) : Built order new [] (fun _ => 0) [] where
  toLinked := linked_new
  keys := rfl
  sorted := List.Pairwise.nil
  short := by simp
  low := le_rfl
  high := (by decide : 1 ≤ kMaxHeight)

/-- What a state within an insertion shows: the keys with or without the new one. -/
structure Shows (order : KeyOrder K κ) (t : SkipList K) (S : List K) : Prop where
  sorted : Lib.SortedBy order.rank S
  linked : ∃ nodes height, Linked t nodes height ∧ nodes.map t.key = S.map some

theorem Shows.answers {order : KeyOrder K κ} {t : SkipList K} {S : List K} (h : Shows order t S)
    {top : ℕ} (htop : 1 ≤ top) (hmax : top ≤ kMaxHeight) : t.Answers order top S := by
  obtain ⟨nodes, height, hlinked, hkeys⟩ := h.linked
  exact hlinked.answers hkeys h.sorted htop hmax

variable {order : KeyOrder K κ} {s t : SkipList K} {nodes : List ℕ} {height : ℕ → ℕ} {S : List K}
  {key : K} {tall : ℕ}

theorem Built.raised (h : Built order s nodes height S) (htall : tall ≤ kMaxHeight) :
    1 ≤ max s.maxHeight tall ∧ max s.maxHeight tall ≤ kMaxHeight :=
  ⟨le_max_of_le_left h.low, max_le h.high htall⟩

/-- The search of an insertion fills in `prev` for every level of the new node. -/
theorem Built.insertWrites_eq (h : Built order s nodes height S) (key : K) (tall : ℕ) :
    ∃ pre post prev, nodes = pre ++ post ∧
      pre.map s.key = (S.takeWhile fun k => decide (order.rank k < order.rank key)).map some ∧
      post.map s.key = (S.dropWhile fun k => decide (order.rank k < order.rank key)).map some ∧
      (∀ l, prev l = some ((above height l pre).getLastD 0)) ∧
      s.insertWrites order key tall = some
        (s.firstWrites key tall ++
          (List.range tall).flatMap (levelWrites (s.keys.length + 1) prev)) := by
  obtain ⟨pre, post, prev, hsplit, hpre, hpost, hrun, hprev⟩ :=
    h.search h.keys (pairwise_below h.sorted key) h.low h.high
  refine ⟨pre, post, fun i => if s.maxHeight ≤ i then some 0 else prev i, hsplit, hpre, hpost,
    fun l => ?_, ?_⟩
  · show (if s.maxHeight ≤ l then some 0 else prev l) = _
    split_ifs with hl
    · -- above the list there is only the head
      have hnone : above height l pre = [] := List.filter_eq_nil_iff.mpr fun n hn => by
        have := h.short n (hsplit ▸ List.mem_append_left _ hn)
        simp only [decide_eq_true_eq]
        omega
      rw [hnone]
      rfl
    · exact hprev l (by omega)
  · rw [insertWrites, findGreaterOrEqual, compare_eq_rank, hrun]
    rfl

/-- The state once the node exists. -/
theorem Built.create (h : Built order s nodes height S) {pre post : List ℕ} (hsplit : nodes = pre ++ post)
    (key : K) (top : ℕ) : Inserting s pre post height key top 0 false
      { keys := s.keys ++ [key], slots := s.slots, maxHeight := top } where
  keys := rfl
  maxHeight := rfl
  published l hl := absurd hl (Nat.not_lt_zero l)
  waiting l _ hl := hsplit ▸ h.chain l hl
  own hfalse := by cases hfalse

/-- Until the node exists only `max_height_` changes. -/
theorem run_firstWrites_take (s : SkipList K) (key : K) (tall : ℕ) {n : ℕ}
    (hn : n < (s.firstWrites key tall).length) :
    ∃ top, Lib.run Write.apply s ((s.firstWrites key tall).take n) = some { s with maxHeight := top } := by
  unfold firstWrites at hn ⊢
  split_ifs at hn ⊢ with hraise
  · rcases n with - | - | n
    · exact ⟨s.maxHeight, rfl⟩
    · exact ⟨tall, rfl⟩
    · simp at hn
  · obtain rfl : n = 0 := by simpa using hn
    exact ⟨s.maxHeight, rfl⟩

theorem run_firstWrites (s : SkipList K) (key : K) (tall : ℕ) :
    Lib.run Write.apply s (s.firstWrites key tall) =
      some { keys := s.keys ++ [key], slots := s.slots, maxHeight := max s.maxHeight tall } := by
  unfold firstWrites
  split_ifs with hraise
  · rw [max_eq_right hraise.le]
    rfl
  · rw [max_eq_left (by omega)]
    rfl

/-- The keys with the new one. -/
theorem insertByKey_split (hkey : ∀ a ∈ S, order.rank a ≠ order.rank key) :
    Lib.insertByKey order.rank key S =
      (S.takeWhile fun k => decide (order.rank k < order.rank key)) ++
        key :: S.dropWhile fun k => decide (order.rank k < order.rank key) := by
  induction S with
  | nil => rfl
  | cons a S ih =>
    rw [Lib.insertByKey]
    split_ifs with h1 h2
    · rw [List.takeWhile_cons_of_neg (by simpa using h1.le), List.dropWhile_cons_of_neg (by simpa using h1.le)]
      rfl
    · rw [List.takeWhile_cons_of_pos (by simpa using h2), List.dropWhile_cons_of_pos (by simpa using h2),
        List.cons_append, ih fun b hb => hkey b (List.mem_cons_of_mem _ hb)]
    · exact absurd (le_antisymm (not_lt.mp h1) (not_lt.mp h2)) (hkey a List.mem_cons_self)

/-- **The states of an insertion**: after each of its stores the keys show without the new one or
    with it, and with it at the end. -/
theorem Built.insert_states (h : Built order s nodes height S)
    (hkey : ∀ a ∈ S, order.rank a ≠ order.rank key) (hpos : 1 ≤ tall) (hmax : tall ≤ kMaxHeight) :
    ∃ writes, s.insertWrites order key tall = some writes ∧
      (∀ n, ∃ t, Lib.run Write.apply s (writes.take n) = some t ∧
        (Shows order t S ∨ Shows order t (Lib.insertByKey order.rank key S))) ∧
      ∃ t nodes' height', Lib.run Write.apply s writes = some t ∧
        Built order t nodes' height' (Lib.insertByKey order.rank key S) := by
  obtain ⟨pre, post, prev, hsplit, hpre, hpost, hprev, hwrites⟩ := h.insertWrites_eq key tall
  have hlinked : Linked s (pre ++ post) height := hsplit ▸ h.toLinked
  have hsorted := Lib.sortedBy_insertByKey (a := key) h.sorted
  have hlevels := fun m => Inserting.run_take hlinked prev tall
    (h.create hsplit key (max s.maxHeight tall)) (by omega) (fun l _ _ => hprev l) m
  rw [List.range_eq_range'] at hwrites
  set levels := (List.range' 0 tall).flatMap (levelWrites (s.keys.length + 1) prev) with hdef
  -- the keys of the nodes once the new one is in a chain
  have hwith : ∀ {t : SkipList K}, t.keys = s.keys ++ [key] →
      (pre ++ (s.keys.length + 1) :: post).map t.key =
        (Lib.insertByKey order.rank key S).map some := by
    intro t hkeys
    obtain ⟨h1, h2⟩ := hlinked.map_key hkeys
    rw [List.map_append, List.map_cons, h1, h2, key_new hkeys, hpre, hpost, insertByKey_split hkey,
      List.map_append, List.map_cons]
  refine ⟨_, hwrites, fun n => ?_, ?_⟩
  · by_cases hfirst : n < (s.firstWrites key tall).length
    · obtain ⟨top, hrun⟩ := run_firstWrites_take s key tall hfirst
      refine ⟨{ s with maxHeight := top }, ?_, Or.inl ⟨h.sorted, nodes, height, ?_, h.keys⟩⟩
      · rwa [List.take_append_of_le_length hfirst.le]
      · exact ⟨h.chain, h.nodup, h.tall, h.allocated⟩
    · obtain ⟨t, level, linked, hrun, ht, -, -⟩ := hlevels (n - (s.firstWrites key tall).length)
      refine ⟨t, ?_, ?_⟩
      · rw [List.take_append, List.take_of_length_le (by omega), Lib.run_append, run_firstWrites,
          Option.bind_some, hrun]
      · rcases Nat.eq_zero_or_pos level with rfl | hlevel
        · refine Or.inl ⟨h.sorted, nodes, height, hsplit ▸ ht.linked_without hlinked, ?_⟩
          obtain ⟨h1, h2⟩ := hlinked.map_key ht.keys
          rw [hsplit, List.map_append, h1, h2, ← List.map_append, ← hsplit, h.keys]
        · exact Or.inr ⟨hsorted, _, _, ht.linked_with hlinked hlevel, hwith ht.keys⟩
  · obtain ⟨t, level, linked, hrun, ht, -, hall⟩ := hlevels (max levels.length (2 * tall))
    obtain ⟨hlevel, -⟩ := hall (le_max_right _ _)
    rw [List.take_of_length_le (le_max_left _ _)] at hrun
    refine ⟨t, _, _, ?_, ht.linked_with hlinked (by omega), hwith ht.keys, hsorted, fun n hn => ?_,
      ht.maxHeight ▸ (h.raised hmax).1, ht.maxHeight ▸ (h.raised hmax).2⟩
    · rw [Lib.run_append, run_firstWrites, Option.bind_some, hrun]
    · rw [ht.maxHeight]
      by_cases hx : n = s.keys.length + 1
      · rw [hx, Function.update_self]
        omega
      · rw [Function.update_of_ne hx]
        refine le_max_of_le_left (h.short n ?_)
        rw [hsplit]
        simpa [hx] using hn

/-- `insert` of a new key. -/
theorem Built.insert (h : Built order s nodes height S)
    (hkey : ∀ a ∈ S, order.rank a ≠ order.rank key) (draws : ℕ → ℕ) :
    ∃ t nodes' height', s.insert order key draws = some t ∧
      Built order t nodes' height' (Lib.insertByKey order.rank key S) := by
  obtain ⟨hpos, hmax⟩ := randomHeight_bounds draws
  obtain ⟨writes, hwrites, -, t, nodes', height', hrun, hbuilt⟩ := h.insert_states hkey hpos hmax
  refine ⟨t, nodes', height', ?_, hbuilt⟩
  rw [SkipList.insert, hwrites, Option.bind_some, hrun]

/-! ## Runs of insertions -/

/-- Insertions of keys, each with what its generator draws. -/
def insertAll (order : KeyOrder K κ) (inserts : List (K × (ℕ → ℕ))) : Option (SkipList K) :=
  Lib.run (fun s insert => s.insert order insert.1 insert.2) new inserts

/-- The keys in order. -/
def sortedKeys (order : KeyOrder K κ) (keys : List K) : List K :=
  keys.foldl (fun S key => Lib.insertByKey order.rank key S) []

theorem sortedKeys_append (order : KeyOrder K κ) (keys : List K) (key : K) :
    sortedKeys order (keys ++ [key]) = Lib.insertByKey order.rank key (sortedKeys order keys) := by
  rw [sortedKeys, List.foldl_append]
  rfl

theorem mem_sortedKeys {keys : List K} {a : K} (h : a ∈ sortedKeys order keys) : a ∈ keys := by
  induction keys using List.reverseRecOn with
  | nil => cases h
  | append_singleton keys key ih =>
    rw [sortedKeys_append] at h
    rcases Lib.mem_of_mem_insertByKey h with rfl | h
    · simp
    · exact List.mem_append_left _ (ih h)

theorem rank_ne_of_nodup {inserts : List (K × (ℕ → ℕ))} {insert : K × (ℕ → ℕ)}
    (hdistinct : ((inserts ++ [insert]).map fun insert => order.rank insert.1).Nodup) :
    ∀ a ∈ sortedKeys order (inserts.map Prod.fst), order.rank a ≠ order.rank insert.1 := by
  intro a ha
  obtain ⟨other, hother, rfl⟩ := List.mem_map.mp (mem_sortedKeys ha)
  rw [List.map_append, List.nodup_append] at hdistinct
  exact hdistinct.2.2 _ (List.mem_map_of_mem hother) _ (by simp)

/-- **A run of insertions** of keys that differ. -/
theorem insertAll_built (order : KeyOrder K κ) (inserts : List (K × (ℕ → ℕ)))
    (hdistinct : (inserts.map fun insert => order.rank insert.1).Nodup) :
    ∃ s nodes height, insertAll order inserts = some s ∧
      Built order s nodes height (sortedKeys order (inserts.map Prod.fst)) := by
  induction inserts using List.reverseRecOn with
  | nil => exact ⟨new, [], fun _ => 0, rfl, built_new order⟩
  | append_singleton inserts insert ih =>
    have hkey := rank_ne_of_nodup hdistinct
    rw [List.map_append, List.nodup_append] at hdistinct
    obtain ⟨s, nodes, height, hrun, hbuilt⟩ := ih hdistinct.1
    obtain ⟨t, nodes', height', hinsert, hbuilt'⟩ := hbuilt.insert hkey insert.2
    refine ⟨t, nodes', height', ?_, ?_⟩
    · rw [insertAll, Lib.run_append, ← insertAll, hrun, Option.bind_some, Lib.run_cons, hinsert]
      rfl
    · rw [List.map_append, List.map_singleton, sortedKeys_append]
      exact hbuilt'

/-- **Readers beside a writer.** In a list that insertions built, another insertion is made one
    store at a time. After any number of its stores, and from the height before or after it, the
    searches end without reading a pointer that is not there, and answer for the keys in order
    without the new one or with it. -/
theorem search_during_insert (order : KeyOrder K κ) (inserts : List (K × (ℕ → ℕ))) (key : K)
    (draws : ℕ → ℕ)
    (hdistinct : ((inserts ++ [(key, draws)]).map fun insert => order.rank insert.1).Nodup) :
    ∃ s writes, insertAll order inserts = some s ∧
      s.insertWrites order key (randomHeight draws) = some writes ∧
      ∀ n, ∃ t S, Lib.run Write.apply s (writes.take n) = some t ∧
        (S = sortedKeys order (inserts.map Prod.fst) ∨
          S = sortedKeys order (inserts.map Prod.fst ++ [key])) ∧
        ∀ top, top = s.maxHeight ∨ top = max s.maxHeight (randomHeight draws) →
          t.Answers order top S := by
  have hkey := rank_ne_of_nodup hdistinct
  rw [List.map_append, List.nodup_append] at hdistinct
  obtain ⟨s, nodes, height, hrun, hbuilt⟩ := insertAll_built order inserts hdistinct.1
  obtain ⟨hpos, hmax⟩ := randomHeight_bounds draws
  obtain ⟨writes, hwrites, hstates, -⟩ := hbuilt.insert_states hkey hpos hmax
  have htops : ∀ top, top = s.maxHeight ∨ top = max s.maxHeight (randomHeight draws) →
      1 ≤ top ∧ top ≤ kMaxHeight := by
    rintro top (rfl | rfl)
    · exact ⟨hbuilt.low, hbuilt.high⟩
    · exact hbuilt.raised hmax
  refine ⟨s, writes, hrun, hwrites, fun n => ?_⟩
  obtain ⟨t, ht, hshows | hshows⟩ := hstates n
  · refine ⟨t, _, ht, Or.inl rfl, fun top htop => ?_⟩
    exact hshows.answers (htops top htop).1 (htops top htop).2
  · refine ⟨t, _, ht, Or.inr (sortedKeys_append order _ key).symm, fun top htop => ?_⟩
    exact hshows.answers (htops top htop).1 (htops top htop).2

/-- Numbers under their order. -/
def numberOrder : KeyOrder ℕ ℕ where
  compare a b := a - b
  rank := id
  compare_lt a b := by simp [sub_neg]

/-- Nodes of heights twelve and one, and one of height three put between them. -/
theorem search_during_insert_between : ∃ s writes,
    insertAll numberOrder [(5, fun _ => 0), (2, fun _ => 1)] = some s ∧
    s.insertWrites numberOrder 3 (randomHeight fun i => i / 2) = some writes ∧
    ∀ n, ∃ t S, Lib.run Write.apply s (writes.take n) = some t ∧
      (S = sortedKeys numberOrder [5, 2] ∨ S = sortedKeys numberOrder [5, 2, 3]) ∧
      ∀ top, top = s.maxHeight ∨ top = max s.maxHeight (randomHeight fun i => i / 2) →
        t.Answers numberOrder top S :=
  search_during_insert numberOrder [(5, fun _ => 0), (2, fun _ => 1)] 3 (fun i => i / 2) (by decide)

end SkipList

end Ambar
