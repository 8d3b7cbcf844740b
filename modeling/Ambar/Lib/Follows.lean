import Ambar.Lib.Cursor

/-!
# Cursors that follow a list

A cursor follows a list if there is a reading of its states as positions of the list
that all its operations keep to. Walking it forward then returns the list, walking it
backward the reverse, and a seek ends on the first entry at or after the key.

* `Follows.forward`, `Follows.backward`, `Follows.seek_current`: what a cursor that
  follows a list returns.
* `posCursor`: the positions themselves, as a cursor.
* `FollowsUnless.run`: any sequence of moves leads where it leads `posCursor`, or fails.
* `Follows.view`: a cursor whose entries are read in another form.
-/

namespace Ambar.Lib

variable {σ E κ : Type*}

/-- A position of a list, `none` past its ends. -/
def posOf (l : List E) (i : ℕ) : Option ℕ := if i < l.length then some i else none

theorem posOf_of_lt {l : List E} {i : ℕ} (h : i < l.length) : posOf l i = some i := if_pos h

theorem posOf_of_le {l : List E} {i : ℕ} (h : l.length ≤ i) : posOf l i = none := if_neg (by omega)

/-- The last position. -/
def lastPos (l : List E) : Option ℕ := if l = [] then none else some (l.length - 1)

/-- The states of the cursor stand for positions of the list; `below` are the entries
    before a key. -/
structure Follows (C : Cursor σ E κ) (below : κ → E → Bool) (l : List E)
    (R : σ → Option ℕ → Prop) : Prop where
  current : ∀ {s p}, R s p → C.current s = p.bind fun i => l[i]?
  bound : ∀ {s i}, R s (some i) → i < l.length
  seekToFirst : ∀ {s p}, R s p → R (C.seekToFirst s) (posOf l 0)
  seekToLast : ∀ {s p}, R s p → R (C.seekToLast s) (lastPos l)
  seek : ∀ {s p} (k : κ), R s p → R (C.seek k s) (posOf l (l.findIdx fun e => !below k e))
  next : ∀ {s i}, R s (some i) → R (C.next s) (posOf l (i + 1))
  prev : ∀ {s i}, R s (some (i + 1)) → R (C.prev s) (some i)
  prev_zero : ∀ {s}, R s (some 0) → R (C.prev s) none

/-- The entries met walking backward for at most `fuel` steps. -/
def Cursor.drainBack (C : Cursor σ E κ) : ℕ → σ → List E
  | 0, _ => []
  | fuel + 1, s =>
    match C.current s with
    | none => []
    | some e => e :: C.drainBack fuel (C.prev s)

namespace Follows

variable {C : Cursor σ E κ} {below : κ → E → Bool} {l : List E} {R : σ → Option ℕ → Prop}

theorem current_some (h : Follows C below l R) {s : σ} {i : ℕ} (hs : R s (some i)) :
    ∃ hi : i < l.length, C.current s = some l[i] := by
  have hi := h.bound hs
  refine ⟨hi, ?_⟩
  rw [h.current hs, Option.bind_some, List.getElem?_eq_getElem hi]

theorem current_none (h : Follows C below l R) {s : σ} (hs : R s none) : C.current s = none :=
  h.current hs

theorem yields (h : Follows C below l R) :
    ∀ {n i : ℕ} {s : σ}, l.length - i ≤ n → R s (posOf l i) → C.Yields s (l.drop i) := by
  intro n
  induction n with
  | zero =>
    intro i s hn hs
    rw [posOf_of_le (by omega)] at hs
    rw [List.drop_eq_nil_of_le (by omega)]
    exact h.current_none hs
  | succ n ih =>
    intro i s hn hs
    by_cases hi : i < l.length
    · rw [posOf_of_lt hi] at hs
      obtain ⟨_, hcur⟩ := h.current_some hs
      rw [List.drop_eq_getElem_cons hi]
      exact ⟨hcur, ih (by omega) (h.next hs)⟩
    · rw [posOf_of_le (by omega)] at hs
      rw [List.drop_eq_nil_of_le (by omega)]
      exact h.current_none hs

/-- **Walking forward** from the first entry returns the list. -/
theorem forward (h : Follows C below l R) {s : σ} {p : Option ℕ} (hs : R s p) {fuel : ℕ}
    (hfuel : l.length ≤ fuel) : C.drain fuel (C.seekToFirst s) = l := by
  have hy := h.yields (Nat.le_refl (l.length - 0)) (h.seekToFirst hs)
  rw [List.drop_zero] at hy
  exact Cursor.drain_eq hy hfuel

theorem drainBack_eq (h : Follows C below l R) :
    ∀ {i : ℕ} {s : σ} {fuel : ℕ}, R s (some i) → i < fuel →
      C.drainBack fuel s = (l.take (i + 1)).reverse := by
  intro i
  induction i with
  | zero =>
    intro s fuel hs hfuel
    obtain ⟨hi, hcur⟩ := h.current_some hs
    obtain ⟨fuel, rfl⟩ : ∃ k, fuel = k + 1 := ⟨fuel - 1, by omega⟩
    rw [Cursor.drainBack, hcur, List.take_succ_eq_append_getElem hi]
    have hend : C.drainBack fuel (C.prev s) = [] := by
      cases fuel with
      | zero => rfl
      | succ fuel => rw [Cursor.drainBack, h.current_none (h.prev_zero hs)]
    simp [hend]
  | succ i ih =>
    intro s fuel hs hfuel
    obtain ⟨hi, hcur⟩ := h.current_some hs
    obtain ⟨fuel, rfl⟩ : ∃ k, fuel = k + 1 := ⟨fuel - 1, by omega⟩
    rw [Cursor.drainBack, hcur, List.take_succ_eq_append_getElem hi, List.reverse_append]
    simp only
    rw [ih (h.prev hs) (by omega)]
    rfl

/-- **Walking backward** from the last entry returns the reverse. -/
theorem backward (h : Follows C below l R) {s : σ} {p : Option ℕ} (hs : R s p) {fuel : ℕ}
    (hfuel : l.length ≤ fuel) : C.drainBack fuel (C.seekToLast s) = l.reverse := by
  have hlast := h.seekToLast hs
  by_cases hnil : l = []
  · rw [lastPos, if_pos hnil] at hlast
    rw [hnil]
    cases fuel with
    | zero => rfl
    | succ fuel => rw [Cursor.drainBack, h.current_none hlast, List.reverse_nil]
  · rw [lastPos, if_neg hnil] at hlast
    have hpos := List.length_pos_iff.mpr hnil
    rw [h.drainBack_eq hlast (by omega), Nat.sub_add_cancel hpos, List.take_length]

/-- **A seek** ends on the first entry that is not below the key, if there is one. -/
theorem seek_current (h : Follows C below l R) {s : σ} {p : Option ℕ} (hs : R s p) (k : κ) :
    C.current (C.seek k s) = l.find? fun e => !below k e := by
  have hseek := h.seek k hs
  rw [h.current hseek]
  by_cases hlt : (l.findIdx fun e => !below k e) < l.length
  · rw [posOf_of_lt hlt, Option.bind_some, List.getElem?_eq_getElem hlt]
    rw [eq_comm, List.find?_eq_some_iff_getElem]
    exact ⟨@List.findIdx_getElem _ (fun e => !below k e) l hlt, _, hlt, rfl, fun j hj => by
      simpa using List.not_of_lt_findIdx hj⟩
  · rw [posOf_of_le (by omega), Option.bind_none, eq_comm, List.find?_eq_none]
    intro e he hbelow
    exact hlt (List.findIdx_lt_length_of_exists ⟨e, he, hbelow⟩)

/-- A reading of the states that is one of several. -/
theorem exists_reading {ι : Type*} {P : ι → Prop} {R : ι → σ → Option ℕ → Prop}
    (h : ∀ x, P x → Follows C below l (R x)) : Follows C below l fun s p => ∃ x, P x ∧ R x s p where
  current := fun ⟨x, hx, hs⟩ => (h x hx).current hs
  bound := fun ⟨x, hx, hs⟩ => (h x hx).bound hs
  seekToFirst := fun ⟨x, hx, hs⟩ => ⟨x, hx, (h x hx).seekToFirst hs⟩
  seekToLast := fun ⟨x, hx, hs⟩ => ⟨x, hx, (h x hx).seekToLast hs⟩
  seek := fun k ⟨x, hx, hs⟩ => ⟨x, hx, (h x hx).seek k hs⟩
  next := fun ⟨x, hx, hs⟩ => ⟨x, hx, (h x hx).next hs⟩
  prev := fun ⟨x, hx, hs⟩ => ⟨x, hx, (h x hx).prev hs⟩
  prev_zero := fun ⟨x, hx, hs⟩ => ⟨x, hx, (h x hx).prev_zero hs⟩

end Follows

/-! ## Moves -/

/-- A call that moves a cursor. -/
inductive Move (κ : Type*) where
  | seekToFirst
  | seekToLast
  | seek (k : κ)
  | next
  | prev

/-- `next` and `prev` are called only while the cursor is valid. -/
def Move.Allowed (valid : Prop) : Move κ → Prop
  | .next | .prev => valid
  | _ => True

namespace Cursor

variable (C : Cursor σ E κ)

def move : Move κ → σ → σ
  | .seekToFirst => C.seekToFirst
  | .seekToLast => C.seekToLast
  | .seek k => C.seek k
  | .next => C.next
  | .prev => C.prev

/-- One call after the other. -/
def run (ms : List (Move κ)) (s : σ) : σ := ms.foldl (fun s m => C.move m s) s

/-- Every call of the sequence is allowed where it is made. -/
def Legal : List (Move κ) → σ → Prop
  | [], _ => True
  | m :: ms, s => m.Allowed ((C.current s).isSome = true) ∧ Legal ms (C.move m s)

instance (ms : List (Move κ)) : ∀ s : σ, Decidable (C.Legal ms s) := by
  induction ms with
  | nil => exact fun _ => isTrue trivial
  | cons m ms ih =>
    intro s
    have : Decidable (m.Allowed ((C.current s).isSome = true)) := by
      cases m <;> simp only [Move.Allowed] <;> infer_instance
    have := ih (C.move m s)
    exact inferInstanceAs (Decidable (_ ∧ _))

end Cursor

/-- The position before another, `none` before the first. -/
def posBefore (i : ℕ) : Option ℕ := if i = 0 then none else some (i - 1)

theorem lastPos_eq (l : List E) : lastPos l = posBefore l.length := by
  unfold lastPos posBefore
  rw [if_congr List.length_eq_zero_iff.symm rfl rfl]

/-- The cursor over a list whose states are the positions. -/
def posCursor (below : κ → E → Bool) (l : List E) : Cursor (Option ℕ) E κ where
  current p := p.bind fun i => l[i]?
  seekToFirst _ := posOf l 0
  seekToLast _ := lastPos l
  seek k _ := posOf l (l.findIdx fun e => !below k e)
  next p := p.bind fun i => posOf l (i + 1)
  prev p := p.bind posBefore

theorem posCursor_bound {below : κ → E → Bool} {l : List E} {p : Option ℕ}
    (hp : ∀ i, p = some i → i < l.length) (m : Move κ) :
    ∀ i, (posCursor below l).move m p = some i → i < l.length := by
  intro i hi
  have hposOf : ∀ n, posOf l n = some i → i < l.length := by
    intro n hn
    unfold posOf at hn
    split_ifs at hn with hlt
    rwa [← Option.some.inj hn]
  have hbefore : ∀ n, n ≤ l.length → posBefore n = some i → i < l.length := by
    intro n hle hn
    unfold posBefore at hn
    split_ifs at hn
    have := Option.some.inj hn
    omega
  cases m with
  | seekToFirst => exact hposOf _ hi
  | seekToLast => exact hbefore _ le_rfl ((lastPos_eq l).symm.trans hi)
  | seek k => exact hposOf _ hi
  | next =>
    obtain ⟨n, -, hn⟩ := Option.bind_eq_some_iff.mp hi
    exact hposOf _ hn
  | prev =>
    obtain ⟨n, hn, hi⟩ := Option.bind_eq_some_iff.mp hi
    exact hbefore n (hp n hn).le hi

/-- The cursor follows the list until it fails; what has failed stays so. -/
structure FollowsUnless (C : Cursor σ E κ) (below : κ → E → Bool) (l : List E)
    (R : σ → Option ℕ → Prop) (bad : σ → Prop) : Prop where
  current : ∀ {s p}, R s p → C.current s = p.bind fun i => l[i]?
  bound : ∀ {s i}, R s (some i) → i < l.length
  step : ∀ {s p} (m : Move κ), R s p → m.Allowed (p.isSome = true) →
    R (C.move m s) ((posCursor below l).move m p) ∨ bad (C.move m s)
  sticky : ∀ {s} (m : Move κ), bad s → bad (C.move m s)

theorem Follows.unless {C : Cursor σ E κ} {below : κ → E → Bool} {l : List E} {R : σ → Option ℕ → Prop}
    (h : Follows C below l R) : FollowsUnless C below l R fun _ => False where
  current := h.current
  bound := h.bound
  step := by
    intro s p m hs hm
    refine Or.inl ?_
    cases m with
    | seekToFirst => exact h.seekToFirst hs
    | seekToLast => exact h.seekToLast hs
    | seek k => exact h.seek k hs
    | next =>
      obtain ⟨i, rfl⟩ := Option.isSome_iff_exists.mp hm
      exact h.next hs
    | prev =>
      obtain ⟨i, rfl⟩ := Option.isSome_iff_exists.mp hm
      cases i with
      | zero => exact h.prev_zero hs
      | succ i => exact h.prev hs
  sticky := fun _ h => h

namespace FollowsUnless

variable {C : Cursor σ E κ} {below : κ → E → Bool} {l : List E} {R : σ → Option ℕ → Prop}
  {bad : σ → Prop}

theorem current_none (h : FollowsUnless C below l R bad) {s : σ} (hs : R s none) : C.current s = none :=
  h.current hs

theorem current_some (h : FollowsUnless C below l R bad) {s : σ} {i : ℕ} (hs : R s (some i)) :
    ∃ hi : i < l.length, C.current s = some l[i] := by
  have hi := h.bound hs
  refine ⟨hi, ?_⟩
  rw [h.current hs, Option.bind_some, List.getElem?_eq_getElem hi]

theorem isSome_current (h : FollowsUnless C below l R bad) {s : σ} {p : Option ℕ} (hs : R s p) :
    (C.current s).isSome = p.isSome := by
  cases p with
  | none =>
    rw [h.current_none hs]
    rfl
  | some i =>
    obtain ⟨_, hcur⟩ := h.current_some hs
    rw [hcur]
    rfl

/-- A cursor that cannot fail follows the list. -/
theorem follows (h : FollowsUnless C below l R bad) (hbad : ∀ s, ¬ bad s) : Follows C below l R where
  current := h.current
  bound := h.bound
  seekToFirst := fun hs => (h.step .seekToFirst hs trivial).resolve_right (hbad _)
  seekToLast := fun hs => (h.step .seekToLast hs trivial).resolve_right (hbad _)
  seek := fun k hs => (h.step (.seek k) hs trivial).resolve_right (hbad _)
  next := fun hs => (h.step .next hs rfl).resolve_right (hbad _)
  prev := fun hs => (h.step .prev hs rfl).resolve_right (hbad _)
  prev_zero := fun hs => (h.step .prev hs rfl).resolve_right (hbad _)

theorem run_bad (h : FollowsUnless C below l R bad) {ms : List (Move κ)} :
    ∀ {s : σ}, bad s → bad (C.run ms s) := by
  induction ms with
  | nil => exact fun hs => hs
  | cons m ms ih => exact fun hs => ih (h.sticky m hs)

/-- **A run of moves** leads where it leads the positions, or fails. -/
theorem run (h : FollowsUnless C below l R bad) {ms : List (Move κ)} :
    ∀ {s : σ} {p : Option ℕ}, R s p → C.Legal ms s →
      R (C.run ms s) ((posCursor below l).run ms p) ∨ bad (C.run ms s) := by
  induction ms with
  | nil => exact fun hs _ => Or.inl hs
  | cons m ms ih =>
    intro s p hs hlegal
    have hallowed : m.Allowed (p.isSome = true) := by
      rw [← h.isSome_current hs]
      exact hlegal.1
    rcases h.step m hs hallowed with hstep | hbad
    · exact ih hstep hlegal.2
    · exact Or.inr (@run_bad _ _ _ _ _ _ _ _ h ms _ hbad)

end FollowsUnless

/-- **A run of moves** of a cursor that follows a list. -/
theorem Follows.run_current {C : Cursor σ E κ} {below : κ → E → Bool} {l : List E}
    {R : σ → Option ℕ → Prop} (h : Follows C below l R) {ms : List (Move κ)} {s : σ} {p : Option ℕ}
    (hs : R s p) (hlegal : C.Legal ms s) :
    C.current (C.run ms s) = (posCursor below l).current ((posCursor below l).run ms p) := by
  rcases h.unless.run hs hlegal with hrun | hbad
  · exact h.current hrun
  · exact hbad.elim

/-! ## Cursors read through another form -/

/-- The same cursor, its entries and keys in another form. -/
def Cursor.view {E' κ' : Type*} (C : Cursor σ E κ) (f : E → Option E') (g : κ' → κ) :
    Cursor σ E' κ' where
  current s := (C.current s).bind f
  seekToFirst := C.seekToFirst
  seekToLast := C.seekToLast
  seek k := C.seek (g k)
  next := C.next
  prev := C.prev

theorem Follows.view {E' κ' : Type*} {C : Cursor σ E κ} {below : κ → E → Bool} {l : List E}
    {R : σ → Option ℕ → Prop} (h : Follows C below l R) {f : E → Option E'} {g : κ' → κ}
    {below' : κ' → E' → Bool} {l' : List E'} (hl : l.map f = l'.map some)
    (hbelow : ∀ k, l.map (fun e => below (g k) e) = l'.map (below' k)) :
    Follows (C.view f g) below' l' R := by
  have hlength : l.length = l'.length := by simpa using congrArg List.length hl
  have hpos : ∀ i, posOf l i = posOf l' i := fun i => by rw [posOf, posOf, hlength]
  have hidx : ∀ k, (l.findIdx fun e => !below (g k) e) = l'.findIdx fun e => !below' k e := by
    intro k
    have hmap := congrArg (List.findIdx fun b => !b) (hbelow k)
    rwa [List.findIdx_map, List.findIdx_map] at hmap
  refine ⟨fun {s p} hs => ?_, fun hs => hlength ▸ h.bound hs, fun hs => hpos 0 ▸ h.seekToFirst hs,
    fun hs => ?_, fun k hs => ?_, fun hs => hpos _ ▸ h.next hs, h.prev, h.prev_zero⟩
  · show (C.current s).bind f = _
    rw [h.current hs]
    cases p with
    | none => rfl
    | some i =>
      have hi := congrArg (fun l => l[i]?) hl
      simp only [List.getElem?_map] at hi
      show l[i]?.bind f = l'[i]?
      cases he : l[i]? <;> cases he' : l'[i]? <;> simp_all
  · rw [lastPos_eq, ← hlength, ← lastPos_eq]
    exact h.seekToLast hs
  · rw [← hidx k, ← hpos]
    exact h.seek (g k) hs

end Ambar.Lib
