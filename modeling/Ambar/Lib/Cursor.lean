import Mathlib.Data.Finset.Lattice.Fold
import Mathlib.Data.List.Sort
import Mathlib.Tactic

/-!
# Cursors over sorted sources

An iterator is a state with operations that move it; `current` is the entry it
stands on, `none` where it is not valid. A cursor over a list, a cursor over the
concatenation of lists that opens them one by one, and a cursor that merges
several others by always standing on the smallest of their entries.

* `Cursor.Yields`: what walking forward to the end returns; `drain_eq` computes it.
* `yields_listCursor`, `yields_chain`: a list, and lists one after the other.
* `yields_merge`: a merging cursor yields the entries of its children in order.
-/

namespace Ambar.Lib

/-- The operations of an iterator with states `σ` over entries `E` with keys `κ`. -/
structure Cursor (σ E κ : Type*) where
  current : σ → Option E
  seekToFirst : σ → σ
  seekToLast : σ → σ
  seek : κ → σ → σ
  next : σ → σ
  prev : σ → σ

namespace Cursor

variable {σ τ E κ : Type*}

/-- From `s`, walking forward to the end returns the entries of the list. -/
def Yields (C : Cursor σ E κ) : σ → List E → Prop
  | s, [] => C.current s = none
  | s, e :: l => C.current s = some e ∧ C.Yields (C.next s) l

/-- The entries met walking forward for at most `fuel` steps. -/
def drain (C : Cursor σ E κ) : ℕ → σ → List E
  | 0, _ => []
  | fuel + 1, s =>
    match C.current s with
    | none => []
    | some e => e :: C.drain fuel (C.next s)

theorem drain_eq {C : Cursor σ E κ} {l : List E} :
    ∀ {s : σ} {fuel : ℕ}, C.Yields s l → l.length ≤ fuel → C.drain fuel s = l := by
  induction l with
  | nil =>
    intro s fuel h _
    cases fuel with
    | zero => rfl
    | succ fuel => rw [drain, show C.current s = none from h]
  | cons e l ih =>
    intro s fuel h hf
    obtain ⟨h1, h2⟩ := h
    obtain ⟨fuel, rfl⟩ : ∃ k, fuel = k + 1 := ⟨fuel - 1, by simp at hf; omega⟩
    rw [drain, h1]
    exact congrArg _ (ih h2 (by simpa using hf))

theorem Yields.current {C : Cursor σ E κ} {s : σ} {l : List E} (h : C.Yields s l) :
    C.current s = l.head? := by
  cases l with
  | nil => exact h
  | cons e l => exact h.1

theorem Yields.next {C : Cursor σ E κ} {s : σ} {e : E} {l : List E} (h : C.Yields s (e :: l)) :
    C.Yields (C.next s) l := h.2

/-- Either of two kinds of cursor. -/
def sum (C : Cursor σ E κ) (D : Cursor τ E κ) : Cursor (σ ⊕ τ) E κ where
  current := Sum.elim C.current D.current
  seekToFirst := Sum.map C.seekToFirst D.seekToFirst
  seekToLast := Sum.map C.seekToLast D.seekToLast
  seek k := Sum.map (C.seek k) (D.seek k)
  next := Sum.map C.next D.next
  prev := Sum.map C.prev D.prev

theorem yields_inl {C : Cursor σ E κ} {D : Cursor τ E κ} {l : List E} :
    ∀ {s : σ}, C.Yields s l → (C.sum D).Yields (Sum.inl s) l := by
  induction l with
  | nil => exact fun h => h
  | cons e l ih => exact fun h => ⟨h.1, ih h.2⟩

theorem yields_inr {C : Cursor σ E κ} {D : Cursor τ E κ} {l : List E} :
    ∀ {s : τ}, D.Yields s l → (C.sum D).Yields (Sum.inr s) l := by
  induction l with
  | nil => exact fun h => h
  | cons e l ih => exact fun h => ⟨h.1, ih h.2⟩

end Cursor

/-! ## A list -/

/-- A position in a list; the length of the list is the position past its end. -/
structure ListPos (E : Type*) where
  list : List E
  index : ℕ

variable {E κ : Type*} [LinearOrder κ] (key : E → κ)

/-- The cursor over a sorted list. Stepping back from the first entry leaves it past
    the end, as `index_ == size` and a null node do. -/
def listCursor : Cursor (ListPos E) E κ where
  current s := s.list[s.index]?
  seekToFirst s := { s with index := 0 }
  seekToLast s := { s with index := s.list.length - 1 }
  seek k s := { s with index := s.list.findIdx fun e => decide (k ≤ key e) }
  next s := { s with index := s.index + 1 }
  prev s := { s with index := if s.index = 0 then s.list.length else s.index - 1 }

/-- A cursor that stands nowhere yet. -/
def ListPos.new (l : List E) : ListPos E := ⟨l, l.length⟩

theorem yields_listCursor (l : List E) :
    ∀ i, (listCursor key).Yields ⟨l, i⟩ (l.drop i) := by
  have : ∀ n i, l.length - i ≤ n → (listCursor key).Yields ⟨l, i⟩ (l.drop i) := by
    intro n
    induction n with
    | zero =>
      intro i hi
      have hle : l.length ≤ i := by omega
      rw [List.drop_eq_nil_of_le hle]
      exact List.getElem?_eq_none hle
    | succ n ih =>
      intro i hi
      by_cases hlt : i < l.length
      · rw [List.drop_eq_getElem_cons hlt]
        exact ⟨List.getElem?_eq_getElem hlt, ih (i + 1) (by omega)⟩
      · rw [List.drop_eq_nil_of_le (not_lt.mp hlt)]
        exact List.getElem?_eq_none (not_lt.mp hlt)
  exact fun i => this _ i le_rfl

theorem yields_listCursor_first (s : ListPos E) :
    (listCursor key).Yields ((listCursor key).seekToFirst s) s.list := by
  have h := yields_listCursor key s.list 0
  rwa [List.drop_zero] at h

/-! ## Lists one after the other -/

/-- The state of a two-level iterator: the position in the index and the open list
    with the position it was opened for. -/
structure ChainPos (ι E : Type*) where
  blocks : List ι
  index : ℕ
  data : Option (ℕ × ListPos E)

namespace ChainPos

variable {ι : Type*} (read : ι → List E)

/-- `init_data_block`: open the list the index stands on, unless it is open. -/
def initData (s : ChainPos ι E) : ChainPos ι E :=
  match s.blocks[s.index]? with
  | none => { s with data := none }
  | some b =>
    match s.data with
    | some (i, _) => if i = s.index then s else { s with data := some (s.index, ListPos.new (read b)) }
    | none => { s with data := some (s.index, ListPos.new (read b)) }

/-- An operation of the open list, if there is one. -/
def onData (f : ListPos E → ListPos E) (s : ChainPos ι E) : ChainPos ι E :=
  { s with data := s.data.map fun p => (p.1, f p.2) }

def current (s : ChainPos ι E) : Option E := s.data.bind fun p => p.2.list[p.2.index]?

/-- `skip_empty_blocks_forward`, for at most `fuel` lists. -/
def skipForward : ℕ → ChainPos ι E → ChainPos ι E
  | 0, s => s
  | fuel + 1, s =>
    match s.current with
    | some _ => s
    | none =>
      if s.index < s.blocks.length then
        skipForward fuel (onData (listCursor key).seekToFirst
          (initData read { s with index := s.index + 1 }))
      else { s with data := none }

/-- `skip_empty_blocks_backward`, for at most `fuel` lists. -/
def skipBackward : ℕ → ChainPos ι E → ChainPos ι E
  | 0, s => s
  | fuel + 1, s =>
    match s.current with
    | some _ => s
    | none =>
      if s.index < s.blocks.length then
        skipBackward fuel (onData (listCursor key).seekToLast
          (initData read { s with
            index := if s.index = 0 then s.blocks.length else s.index - 1 }))
      else { s with data := none }

/-- A two-level iterator that stands nowhere yet. -/
def new (blocks : List ι) : ChainPos ι E := ⟨blocks, blocks.length, none⟩

end ChainPos

/-- The two-level iterator over lists read one by one. `find` is the search of the
    index: the position of the first list that may hold the key. -/
def chainCursor {ι : Type*} (read : ι → List E) (find : List ι → κ → ℕ) :
    Cursor (ChainPos ι E) E κ where
  current := ChainPos.current
  seekToFirst s := ChainPos.skipForward key read (s.blocks.length + 1)
    (ChainPos.onData (listCursor key).seekToFirst (ChainPos.initData read { s with index := 0 }))
  seekToLast s := ChainPos.skipBackward key read (s.blocks.length + 1)
    (ChainPos.onData (listCursor key).seekToLast
      (ChainPos.initData read { s with index := s.blocks.length - 1 }))
  seek k s := ChainPos.skipForward key read (s.blocks.length + 1)
    (ChainPos.onData ((listCursor key).seek k)
      (ChainPos.initData read { s with index := find s.blocks k }))
  next s := ChainPos.skipForward key read (s.blocks.length + 1)
    (ChainPos.onData (listCursor key).next s)
  prev s := ChainPos.skipBackward key read (s.blocks.length + 1)
    (ChainPos.onData (listCursor key).prev s)

namespace ChainPos

variable {ι : Type*} {read : ι → List E}

/-- The open list is the one the index stands on, or the index is past its end. -/
inductive Good (read : ι → List E) (s : ChainPos ι E) : Prop
  | ended (hd : s.data = none) (hi : s.blocks.length ≤ s.index)
  | standing (b : ι) (p : ListPos E) (hb : s.blocks[s.index]? = some b)
      (hd : s.data = some (s.index, p)) (hp : p.list = read b)

/-- What is left to walk. -/
def rest (read : ι → List E) (s : ChainPos ι E) : List E :=
  match s.data with
  | none => []
  | some (_, p) => p.list.drop p.index ++ (s.blocks.drop (s.index + 1)).flatMap read

/-- Opening the list the index stands on, from a state with no other list open. -/
theorem initData_first (read : ι → List E) (blocks : List ι) (i : ℕ) (d : Option (ℕ × ListPos E))
    (hd : ∀ j p, d = some (j, p) → j ≠ i) :
    let s := onData (listCursor key).seekToFirst (initData read ⟨blocks, i, d⟩)
    Good read s ∧ s.rest read = (blocks.drop i).flatMap read ∧ s.blocks = blocks ∧ s.index = i := by
  intro s
  by_cases hi : i < blocks.length
  · have hb : blocks[i]? = some blocks[i] := List.getElem?_eq_getElem hi
    have hs : s = ⟨blocks, i, some (i, ⟨read blocks[i], 0⟩)⟩ := by
      cases d with
      | none => simp [s, initData, onData, hb, listCursor, ListPos.new]
      | some q =>
        have := hd q.1 q.2 rfl
        simp [s, initData, onData, hb, listCursor, ListPos.new, this]
    rw [hs]
    refine ⟨.standing blocks[i] _ hb rfl rfl, ?_, rfl, rfl⟩
    simp only [rest, List.drop_zero]
    rw [List.drop_eq_getElem_cons hi, List.flatMap_cons]
  · have hb : blocks[i]? = none := List.getElem?_eq_none (not_lt.mp hi)
    have hs : s = ⟨blocks, i, none⟩ := by simp [s, initData, onData, hb]
    rw [hs]
    refine ⟨.ended rfl (not_lt.mp hi), ?_, rfl, rfl⟩
    rw [List.drop_eq_nil_of_le (not_lt.mp hi)]
    rfl

/-- Skipping the lists that are used up loses nothing and ends on an entry, if one
    is left. -/
theorem skipForward_good :
    ∀ (fuel : ℕ) (s : ChainPos ι E), Good read s → s.blocks.length - s.index < fuel →
      Good read (skipForward key read fuel s) ∧
      (skipForward key read fuel s).rest read = s.rest read ∧
      (skipForward key read fuel s).blocks = s.blocks ∧
      (skipForward key read fuel s).current = (s.rest read).head? := by
  intro fuel
  induction fuel with
  | zero => intro s _ h; omega
  | succ fuel ih =>
    intro s hg hf
    rw [skipForward]
    cases hc : s.current with
    | some e =>
      refine ⟨hg, rfl, rfl, ?_⟩
      rw [hc]
      cases hg with
      | ended hd hi => simp [current, hd] at hc
      | standing b p hb hd hp =>
        simp only [current, hd, Option.bind_some] at hc
        simp [rest, hd, List.head?_append, List.head?_drop, hc]
    | none =>
      cases hg with
      | ended hd hi =>
        rw [if_neg (by omega)]
        exact ⟨.ended rfl hi, by simp [rest, hd], rfl, by simp [rest, hd, current]⟩
      | standing b p hb hd hp =>
        have hlt : s.index < s.blocks.length := (List.getElem?_eq_some_iff.mp hb).1
        have hend : p.list.drop p.index = [] := by
          simp only [current, hd, Option.bind_some] at hc
          exact List.drop_eq_nil_of_le (List.getElem?_eq_none_iff.mp hc)
        rw [if_pos hlt]
        obtain ⟨h1, h2, h3, h4⟩ := initData_first key read s.blocks (s.index + 1) s.data
          (by rintro j q hj; rw [hd] at hj; cases hj; omega)
        have hrest : s.rest read = (s.blocks.drop (s.index + 1)).flatMap read := by
          simp [rest, hd, hend]
        obtain ⟨h5, h6, h7, h8⟩ := ih _ h1 (by rw [h3, h4]; omega)
        exact ⟨h5, by rw [h6, h2, hrest], by rw [h7, h3], by rw [h8, h2, hrest]⟩

end ChainPos

/-- A two-level iterator on an entry, or past the end, yields what is left. -/
theorem yields_chain_of_good {ι : Type*} {read : ι → List E} {find : List ι → κ → ℕ} {l : List E} :
    ∀ {s : ChainPos ι E}, s.Good read → s.rest read = l → s.current = l.head? →
      (chainCursor key read find).Yields s l := by
  induction l with
  | nil => exact fun _ _ h => h
  | cons e l ih =>
    intro s hg hr hc
    refine ⟨hc, ?_⟩
    have hnext : ChainPos.Good read (ChainPos.onData (listCursor key).next s) ∧
        (ChainPos.onData (listCursor key).next s).rest read = l := by
      cases hg with
      | ended hd hi => simp [ChainPos.rest, hd] at hr
      | standing b p hb hd hp =>
        refine ⟨.standing b ⟨p.list, p.index + 1⟩ hb (by simp [ChainPos.onData, hd, listCursor]) hp, ?_⟩
        simp only [ChainPos.current, hd, Option.bind_some, List.head?_cons] at hc
        obtain ⟨hlt, hget⟩ := List.getElem?_eq_some_iff.mp hc
        simp only [ChainPos.rest, hd] at hr
        rw [List.drop_eq_getElem_cons hlt, List.cons_append] at hr
        simp only [ChainPos.rest, ChainPos.onData, hd, Option.map_some, listCursor]
        exact (List.cons.inj hr).2
    obtain ⟨h1, h2, h3, h4⟩ := ChainPos.skipForward_good key (s.blocks.length + 1) _ hnext.1
      (by simp only [ChainPos.onData]; omega)
    exact ih h1 (h2.trans hnext.2) (by rw [← hnext.2]; exact h4)

theorem yields_chain {ι : Type*} (read : ι → List E) (find : List ι → κ → ℕ) (blocks : List ι) :
    (chainCursor key read find).Yields
      ((chainCursor key read find).seekToFirst (ChainPos.new blocks)) (blocks.flatMap read) := by
  obtain ⟨h1, h2, h3, h4⟩ := ChainPos.initData_first key read blocks 0 none (by simp)
  obtain ⟨h5, h6, h7, h8⟩ := ChainPos.skipForward_good key (blocks.length + 1) _ h1
    (by rw [h3, h4]; omega)
  rw [List.drop_zero] at h2
  exact yields_chain_of_good key h5 (h6.trans h2) (by rw [← h2]; exact h8)

/-! ## Merging -/

/-- The two directions of a merging iterator. -/
inductive Direction where
  | forward
  | reverse
deriving DecidableEq, Repr

/-- The state of a merging iterator: its children, which one it stands on, and the
    direction of the last move. -/
structure MergePos (σ : Type*) where
  children : List σ
  current : Option ℕ
  direction : Direction

namespace MergePos

variable {σ : Type*} (C : Cursor σ E κ)

/-- One turn of the loops of `find_smallest` and `find_largest`: the better of the
    child met so far and the next one; `better` compares with the one so far. -/
def pick (better : κ → κ → Bool) (best : Option (E × ℕ)) (child : Option E × ℕ) :
    Option (E × ℕ) :=
  match child.1, best with
  | none, _ => best
  | some e, none => some (e, child.2)
  | some e, some (m, i) => if better (key e) (key m) then some (e, child.2) else some (m, i)

/-- `find_smallest`: the first child of the smallest key. -/
def findSmallest (children : List σ) : Option ℕ :=
  (((children.map C.current).zipIdx).foldl (pick key fun a b => decide (a < b)) none).map (·.2)

/-- `find_largest`: the last child of the largest key. -/
def findLargest (children : List σ) : Option ℕ :=
  ((((children.map C.current).zipIdx).reverse).foldl (pick key fun a b => decide (b < a)) none).map
    (·.2)

/-- The entry the iterator stands on. -/
def entry (s : MergePos σ) : Option E :=
  s.current.bind fun i => s.children[i]?.bind C.current

/-- Every child but the current one. -/
def mapOthers (f : σ → σ) (s : MergePos σ) : List σ :=
  s.children.zipIdx.map fun c => if s.current = some c.2 then c.1 else f c.1

/-- The current child. -/
def mapCurrent (f : σ → σ) (s : MergePos σ) (children : List σ) : List σ :=
  match s.current with
  | none => children
  | some i => children.modify i f

end MergePos

/-- The merging iterator. -/
def mergeCursor {σ : Type*} (C : Cursor σ E κ) : Cursor (MergePos σ) E κ where
  current := MergePos.entry C
  seekToFirst s :=
    let children := s.children.map C.seekToFirst
    ⟨children, MergePos.findSmallest key C children, .forward⟩
  seekToLast s :=
    let children := s.children.map C.seekToLast
    ⟨children, MergePos.findLargest key C children, .reverse⟩
  seek k s :=
    let children := s.children.map (C.seek k)
    ⟨children, MergePos.findSmallest key C children, .forward⟩
  next s :=
    let children := match s.direction, MergePos.entry C s with
      | .reverse, some e => s.mapOthers (C.seek (key e))
      | _, _ => s.children
    let children := s.mapCurrent C.next children
    ⟨children, MergePos.findSmallest key C children, .forward⟩
  prev s :=
    let children := match s.direction, MergePos.entry C s with
      | .forward, some e => s.mapOthers fun c =>
          let c := C.seek (key e) c
          if (C.current c).isSome then C.prev c else C.seekToLast c
      | _, _ => s.children
    let children := s.mapCurrent C.prev children
    ⟨children, MergePos.findLargest key C children, .reverse⟩

namespace MergePos

variable {σ : Type*} {C : Cursor σ E κ}

/-- What the loop of `find_smallest` has after the children so far: nothing while
    none is valid, or a smallest entry and where it is. -/
theorem foldl_pick_spec (l : List (Option E × ℕ)) :
    ∀ best : Option (E × ℕ),
      match l.foldl (pick key fun a b => decide (a < b)) best with
      | none => best = none ∧ ∀ c ∈ l, c.1 = none
      | some (m, i) => (best = some (m, i) ∨ (some m, i) ∈ l) ∧
          (∀ b, best = some b → key m ≤ key b.1) ∧ ∀ c ∈ l, ∀ e, c.1 = some e → key m ≤ key e := by
  induction l with
  | nil =>
    intro best
    cases best with
    | none => simp
    | some b => simp
  | cons c l ih =>
    intro best
    rw [List.foldl_cons]
    obtain ⟨o, j⟩ := c
    cases o with
    | none =>
      have hp : pick key (fun a b => decide (a < b)) best (none, j) = best := by simp [pick]
      rw [hp]
      have h := ih best
      split at h
      · exact ⟨h.1, by simpa using h.2⟩
      · refine ⟨h.1.imp id (List.mem_cons_of_mem _), h.2.1, fun c hc e he => ?_⟩
        rcases List.mem_cons.mp hc with rfl | hc
        · cases he
        · exact h.2.2 c hc e he
    | some e =>
      have h := ih (pick key (fun a b => decide (a < b)) best (some e, j))
      cases best with
      | none =>
        simp only [pick] at h ⊢
        split at h
        · exact absurd h.1 (by simp)
        · next m i hm =>
          refine ⟨Or.inr ?_, by simp, fun c hc e' he' => ?_⟩
          · rcases h.1 with h1 | h1
            · cases h1
              simp
            · exact List.mem_cons_of_mem _ h1
          · rcases List.mem_cons.mp hc with rfl | hc
            · cases he'
              exact h.2.1 _ rfl
            · exact h.2.2 c hc e' he'
      | some b =>
        obtain ⟨b, k⟩ := b
        by_cases hlt : key e < key b
        · have hp : pick key (fun a b => decide (a < b)) (some (b, k)) (some e, j) = some (e, j) := by
            simp [pick, hlt]
          rw [hp] at h ⊢
          split at h
          · exact absurd h.1 (by simp)
          · next m i hm =>
            refine ⟨Or.inr ?_, fun b' hb' => ?_, fun c hc e' he' => ?_⟩
            · rcases h.1 with h1 | h1
              · cases h1
                simp
              · exact List.mem_cons_of_mem _ h1
            · cases hb'
              exact (h.2.1 _ rfl).trans hlt.le
            · rcases List.mem_cons.mp hc with rfl | hc
              · cases he'
                exact h.2.1 _ rfl
              · exact h.2.2 c hc e' he'
        · have hp : pick key (fun a b => decide (a < b)) (some (b, k)) (some e, j) = some (b, k) := by
            simp [pick, hlt]
          rw [hp] at h ⊢
          split at h
          · exact absurd h.1 (by simp)
          · next m i hm =>
            refine ⟨h.1.imp id (List.mem_cons_of_mem _), h.2.1, fun c hc e' he' => ?_⟩
            rcases List.mem_cons.mp hc with rfl | hc
            · cases he'
              exact (h.2.1 _ rfl).trans (not_lt.mp hlt)
            · exact h.2.2 c hc e' he'

/-- `find_smallest` finds a child with the smallest of the children's entries. -/
theorem findSmallest_spec (children : List σ) :
    match findSmallest key C children with
    | none => ∀ c ∈ children, C.current c = none
    | some i => ∃ c e, children[i]? = some c ∧ C.current c = some e ∧
        ∀ c' ∈ children, ∀ e', C.current c' = some e' → key e ≤ key e' := by
  have h := foldl_pick_spec key (children.map C.current).zipIdx none
  unfold findSmallest
  split at h
  · next hn =>
    rw [hn]
    intro c hc
    obtain ⟨i, hi, rfl⟩ := List.getElem_of_mem hc
    exact h.2 (C.current children[i], i) (by
      rw [List.mk_mem_zipIdx_iff_getElem?]
      simp [hi])
  · next m i hm =>
    rw [hm]
    obtain ⟨h1 | h1, -, h3⟩ := h
    · cases h1
    · rw [List.mk_mem_zipIdx_iff_getElem?, List.getElem?_map] at h1
      obtain ⟨c, hc, he⟩ := Option.map_eq_some_iff.mp h1
      refine ⟨c, m, hc, he, fun c' hc' e' he' => ?_⟩
      obtain ⟨j, hj, rfl⟩ := List.getElem_of_mem hc'
      refine h3 (C.current children[j], j) ?_ e' he'
      rw [List.mk_mem_zipIdx_iff_getElem?]
      simp [hj]

end MergePos

/-- A list among others gives up its first element. -/
theorem flatten_set_perm {α : Type*} {ls : List (List α)} {i : ℕ} {e : α} {l : List α}
    (h : ls[i]? = some (e :: l)) : ls.flatten.Perm (e :: (ls.set i l).flatten) := by
  induction ls generalizing i with
  | nil => simp at h
  | cons x ls ih =>
    cases i with
    | zero =>
      simp only [List.getElem?_cons_zero, Option.some.injEq] at h
      subst h
      simp
    | succ i =>
      rw [List.getElem?_cons_succ] at h
      rw [List.set_cons_succ, List.flatten_cons, List.flatten_cons]
      refine ((ih h).append_left x).trans ?_
      exact List.perm_middle

/-- A merging iterator moving forward yields the entries of its children in order. -/
theorem yields_mergeCursor {σ : Type*} {C : Cursor σ E κ} :
    ∀ (n : ℕ) (children : List σ) (ls : List (List E)), ls.flatten.length = n →
      children.length = ls.length →
      (∀ (i : ℕ) c l, children[i]? = some c → ls[i]? = some l → C.Yields c l) →
      (∀ l ∈ ls, l.Pairwise fun a b => key a ≤ key b) →
      ∃ m, (mergeCursor key C).Yields
          ⟨children, MergePos.findSmallest key C children, .forward⟩ m ∧
        m.Perm ls.flatten ∧ m.Pairwise fun a b => key a ≤ key b := by
  intro n
  induction n with
  | zero =>
    intro children ls hn hlen hy _
    have hnil : ls.flatten = [] := List.eq_nil_of_length_eq_zero hn
    refine ⟨[], ?_, by rw [hnil], List.Pairwise.nil⟩
    have hspec := MergePos.findSmallest_spec key (C := C) children
    split at hspec
    · next hnone => simp [Cursor.Yields, mergeCursor, MergePos.entry, hnone]
    · next i hi =>
      obtain ⟨c, e, hc, he, -⟩ := hspec
      have hlt : i < ls.length := hlen ▸ (List.getElem?_eq_some_iff.mp hc).1
      have hyi := hy i c ls[i] hc (List.getElem?_eq_getElem hlt)
      rw [List.flatten_eq_nil_iff.mp hnil ls[i] (List.getElem_mem hlt)] at hyi
      have hnone : C.current c = none := hyi
      rw [he] at hnone
      cases hnone
  | succ n ih =>
    intro children ls hn hlen hy hs
    have hspec := MergePos.findSmallest_spec key (C := C) children
    split at hspec
    · -- some child has an entry left
      exfalso
      have hall : ∀ l ∈ ls, l = [] := by
        intro l hl
        obtain ⟨i, hi, rfl⟩ := List.getElem_of_mem hl
        have hic : i < children.length := by omega
        have := (hy i children[i] ls[i] (List.getElem?_eq_getElem hic)
          (List.getElem?_eq_getElem hi)).current
        rw [hspec _ (List.getElem_mem hic)] at this
        exact List.head?_eq_none_iff.mp this.symm
      rw [List.flatten_eq_nil_iff.mpr hall] at hn
      simp at hn
    · next i hi =>
      obtain ⟨c, e, hc, he, hmin⟩ := hspec
      have hic : i < children.length := (List.getElem?_eq_some_iff.mp hc).1
      have hil : i < ls.length := by omega
      have hli : ls[i]? = some ls[i] := List.getElem?_eq_getElem hil
      have hyi := hy i c ls[i] hc hli
      obtain ⟨l, hl⟩ : ∃ l, ls[i] = e :: l := by
        have := hyi.current
        rw [he] at this
        obtain ⟨l, hl⟩ := List.head?_eq_some_iff.mp this.symm
        exact ⟨l, hl⟩
      rw [hl] at hyi hli
      have hperm := flatten_set_perm hli
      have hle : ∀ x ∈ ls.flatten, key e ≤ key x := by
        intro x hx
        obtain ⟨l', hl', hx'⟩ := List.mem_flatten.mp hx
        obtain ⟨j, hj, rfl⟩ := List.getElem_of_mem hl'
        have hjc : j < children.length := by omega
        have hcur := (hy j children[j] ls[j] (List.getElem?_eq_getElem hjc)
          (List.getElem?_eq_getElem hj)).current
        have hsj := hs ls[j] hl'
        cases hlj : ls[j] with
        | nil => simp [hlj] at hx'
        | cons y rest =>
          rw [hlj] at hcur hx' hsj
          have hy' := hmin children[j] (List.getElem_mem hjc) y (by simpa using hcur)
          rcases List.mem_cons.mp hx' with rfl | hx'
          · exact hy'
          · exact hy'.trans ((List.pairwise_cons.mp hsj).1 x hx')
      -- the chosen child moves on, the others stay
      obtain ⟨m, hm, hmp, hms⟩ := ih (children.modify i C.next) (ls.set i l)
        (by
          have := hperm.length_eq
          rw [hn, List.length_cons] at this
          omega)
        (by simp [hlen])
        (by
          intro j c' l' hc' hl'
          by_cases hij : i = j
          · subst hij
            rw [List.getElem?_modify_eq, hc] at hc'
            rw [List.getElem?_set_self hil] at hl'
            cases hc'
            cases hl'
            exact hyi.next
          · rw [List.getElem?_modify_ne _ _ hij] at hc'
            rw [List.getElem?_set_ne hij] at hl'
            exact hy j c' l' hc' hl')
        (by
          intro l' hl'
          rcases List.mem_or_eq_of_mem_set hl' with hl' | rfl
          · exact hs l' hl'
          · have := hs _ (List.mem_of_getElem? hli)
            exact (List.pairwise_cons.mp this).2)
      refine ⟨e :: m, ⟨by simp [mergeCursor, MergePos.entry, hi, hc, he], ?_⟩, ?_, ?_⟩
      · simpa [mergeCursor, MergePos.mapCurrent, hi] using hm
      · exact (hmp.cons e).trans hperm.symm
      · refine List.pairwise_cons.mpr ⟨fun x hx => ?_, hms⟩
        exact hle x (hperm.symm.subset (List.mem_cons_of_mem _ (hmp.subset hx)))

/-- The merging iterator over sorted sources, from its first entry. -/
theorem yields_merge {σ α : Type*} {C : Cursor σ E κ} (sources : List α) (start : α → σ)
    (entries : α → List E) (hy : ∀ a ∈ sources, C.Yields (C.seekToFirst (start a)) (entries a))
    (hs : ∀ a ∈ sources, (entries a).Pairwise fun a b => key a ≤ key b) :
    ∃ m, (mergeCursor key C).Yields
        ((mergeCursor key C).seekToFirst ⟨sources.map start, none, .forward⟩) m ∧
      m.Perm (sources.flatMap entries) ∧ m.Pairwise fun a b => key a ≤ key b := by
  rw [List.flatMap_def]
  refine yields_mergeCursor key _ _ (sources.map entries) rfl (by simp) ?_ ?_
  · intro i c l hc hl
    simp only [List.getElem?_map, Option.map_eq_some_iff] at hc hl
    obtain ⟨c', ⟨a, ha, rfl⟩, rfl⟩ := hc
    obtain ⟨a', ha', rfl⟩ := hl
    rw [ha] at ha'
    cases ha'
    exact hy a (List.mem_of_getElem? ha)
  · intro l hl
    obtain ⟨a, ha, rfl⟩ := List.mem_map.mp hl
    exact hs a ha

end Ambar.Lib
