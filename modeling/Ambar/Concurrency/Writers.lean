import Ambar.Lib.Trace

/-!
# Writers and their leader

How writers hand over to each other (`DBImpl::write` and `await_turn`,
`src/db_impl.cpp`, lines 536–714). A writer joins a queue; the one at its front is the
leader, which writes for a group, answers its members and promotes the writer that is
then at the front. A writer that is not at the front watches its state with the mutex
released, and parks on its condition if it is not answered in time. Once it is answered
it may return, and its `Writer`, which lives on its stack, is gone.

Every access to the atomic state of a writer is a step, and so are taking and leaving the
mutex, storing a status, waiting on a condition and notifying it. `accesses` lists the
writers whose `Writer` a step of another one touches.

* `Inv.step`: what one step keeps.
* `writers_answered`: in every state of every run at most one writer leads, no one sleeps
  through its answer, and nobody touches a writer that has returned.
-/

namespace Ambar

namespace Writers

variable {W : Type*} [DecidableEq W]

/-! ## The model -/

/-- `Writer::State` (line 88). -/
inductive WriterState where
  | waiting
  | parked
  | done
  | leader
deriving DecidableEq, Repr

/-- What a leader does after it has notified a writer. -/
inductive After (W : Type*) where
  | reporting (last : W)
  | promoting
  | returning
deriving DecidableEq

/-- Where a call of `write` stands. -/
inductive Place (W : Type*) where
  /-- Not called yet. -/
  | fresh
  /-- At the lock of line 541. -/
  | locking
  /-- In `await_turn`, about to release the mutex (line 674). -/
  | unlocking
  /-- At the load of the loop (lines 676–685). -/
  | spinning
  /-- At the load after the loop (line 694). -/
  | watched
  /-- At the lock of line 697. -/
  | relocking
  /-- At the load of line 699. -/
  | checking
  /-- At the store of line 710. -/
  | parking
  /-- At the load of line 711. -/
  | parked
  /-- About to wait (line 712). -/
  | sleeping
  /-- Blocked in the wait. -/
  | blocked
  /-- Out of the wait but for the mutex. -/
  | waking
  /-- At the load of line 552, out of `await_turn` with the mutex or without. -/
  | left (locked : Bool)
  /-- The leader in `make_room_for_write`, with the mutex or without (line 559). -/
  | leading (locked : Bool)
  /-- The group is formed (line 564). -/
  | grouped (last : W)
  /-- At the log and the memtable, without the mutex (lines 576–601). -/
  | writing (last : W)
  /-- At the head of the loop of lines 644–656. -/
  | reporting (last : W)
  /-- A writer other than the leader has been taken from the queue. -/
  | popped (ready last : W)
  /-- Its status has been stored (line 652). -/
  | stored (ready last : W)
  /-- In `release`, at the notification (line 104). -/
  | notifying (ready : W) (after : After W)
  /-- At the promotion (line 657). -/
  | promoting
  /-- About to return with the mutex. -/
  | returning
  /-- The call has returned. -/
  | returned
deriving DecidableEq

/-- Who has the mutex: a writer, or a thread that is none. -/
inductive Holder (W : Type*) where
  | writer (w : W)
  | other
deriving DecidableEq

/-- `writers_`, the writers, and the mutex. `acting` is the writer that acts as leader;
    `notified` says whether one has been notified since it blocked, `answered` whether its
    status has been stored, `toDone` and `toLeader` how often it was moved to these states. -/
structure State (W : Type*) where
  mutex : Option (Holder W)
  queue : List W
  place : W → Place W
  state : W → WriterState
  acting : Option W
  notified : W → Bool
  answered : W → Bool
  toDone : W → ℕ
  toLeader : W → ℕ

def State.init : State W where
  mutex := none
  queue := []
  place := fun _ => .fresh
  state := fun _ => .waiting
  acting := none
  notified := fun _ => false
  answered := fun _ => false
  toDone := fun _ => 0
  toLeader := fun _ => 0

/-- The steps. `proceed` is the next step of a writer that is not at a lock; `choice` says
    whether it gives up watching, or releases the mutex where it may. A wait may end
    without a notification. -/
inductive Action (W : Type*) where
  | call (w : W)
  | acquire (w : W)
  | proceed (w : W) (choice : Bool)
  | group (w : W) (size : ℕ)
  | wake (w : W)
  | otherLocks
  | otherUnlocks

def After.place : After W → Place W
  | .reporting last => .reporting last
  | .promoting => .promoting
  | .returning => .returning

namespace State

section

variable (s : State W)

/-- The writer goes to a place. -/
def move (w : W) (p : Place W) : State W := { s with place := Function.update s.place w p }

/-- The writer goes to a place and leaves the mutex. -/
def unlock (w : W) (p : Place W) : State W := { s.move w p with mutex := none }

/-- The writer becomes the leader. -/
def lead (w : W) (locked : Bool) : State W := { s.move w (.leading locked) with acting := some w }

/-- The leader goes on. -/
def resume (w : W) (after : After W) : State W :=
  { s.move w after.place with acting := if after = .returning then none else s.acting }

/-- The leader takes the writer at the front from the queue (lines 645–651). -/
def pop (w last : W) : Option (State W) :=
  match s.queue with
  | [] => none
  | ready :: rest =>
    if ready = w then
      some ({ s with queue := rest }.resume w (if ready = last then .promoting else .reporting last))
    else some ({ s with queue := rest }.move w (.popped ready last))

/-- The exchange of `release` (lines 102–106); the leader goes on with a notification if
    the writer had parked. -/
def exchange (w target : W) (new : WriterState) (after : After W) : State W :=
  let s' := { s with
    state := Function.update s.state target new
    toDone := if new = WriterState.done then Function.update s.toDone target (s.toDone target + 1) else s.toDone
    toLeader := if new = WriterState.leader then Function.update s.toLeader target (s.toLeader target + 1)
      else s.toLeader }
  if s.state target = .parked then s'.move w (.notifying target after) else s'.resume w after

/-- `notify_one` (line 104): it reaches the writer if that is blocked. -/
def notify (w ready : W) (after : After W) : State W :=
  { s with notified := if s.place ready = Place.blocked then Function.update s.notified ready true
      else s.notified }.resume w after

/-- The next step of a writer that is not at a lock. -/
def proceed (w : W) (choice : Bool) : Option (State W) :=
  match s.place w with
  | .unlocking => some (s.unlock w .spinning)
  | .spinning => some (s.move w (if s.state w ≠ .waiting ∨ choice = true then .watched else .spinning))
  | .watched => some (s.move w (if s.state w = .done then .left false else .relocking))
  | .checking => some (s.move w (if s.state w ≠ .waiting then .left true else .parking))
  | .parking => some ({ s with state := Function.update s.state w .parked }.move w .parked)
  | .parked => some (s.move w (if s.state w = .parked then .sleeping else .left true))
  | .sleeping => some ({ s with notified := Function.update s.notified w false }.unlock w .blocked)
  | .left locked =>
    if s.state w = .done then some (s.move w (if locked then .returning else .returned))
    else some (s.lead w locked)
  | .leading true => if choice then some (s.unlock w (.leading false)) else none
  | .grouped last => if choice then some (s.unlock w (.writing last)) else some (s.move w (.reporting last))
  | .reporting last => s.pop w last
  | .popped ready last =>
    some ({ s with answered := Function.update s.answered ready true }.move w (.stored ready last))
  | .stored ready last =>
    some (s.exchange w ready .done (if ready = last then .promoting else .reporting last))
  | .notifying ready after => some (s.notify w ready after)
  | .promoting =>
    match s.queue with
    | [] => some (s.resume w .returning)
    | front :: _ => some (s.exchange w front .leader .returning)
  | .returning => some (s.unlock w .returned)
  | _ => none

end

section

variable (sync batchless : W → Bool) (s : State W)

/-- A writer at a lock takes the mutex. One that joins becomes the leader if the queue was
    empty, and otherwise watches unless the leader is slow (lines 542–551). -/
def acquire (w : W) : Option (State W) :=
  if s.mutex = none then
    let s := { s with mutex := some (.writer w) }
    match s.place w with
    | .locking =>
      match s.queue with
      | [] => some ({ s with queue := [w] }.lead w true)
      | front :: rest =>
        some ({ s with queue := front :: rest ++ [w] }.move w
          (if !sync front && !batchless front then .unlocking else .checking))
    | .relocking => some (s.move w .checking)
    | .waking => some (s.move w .parked)
    | .leading false => some (s.move w (.leading true))
    | .writing last => some (s.move w (.reporting last))
    | _ => none
  else none

/-- The group is the front of the queue as far as `build_batch_group` goes (lines 716–753):
    it ends before a batchless write, before one with sync if the leader has none, or
    where it is large enough; it is the leader alone if there is nothing to write. -/
def formGroup (w : W) (size : ℕ) : Option (State W) :=
  match s.place w, s.queue[size - 1]? with
  | .leading true, some last =>
    if 1 ≤ size ∧ ∀ x ∈ (s.queue.take size).tail, batchless x = false ∧ (sync x = true → sync w = true) then
      some (s.move w (.grouped last))
    else none
  | _, _ => none

/-- One step. -/
def step : Action W → Option (State W)
  | .call w => if s.place w = .fresh then some (s.move w .locking) else none
  | .acquire w => s.acquire sync batchless w
  | .proceed w choice => s.proceed w choice
  | .group w size => s.formGroup sync batchless w size
  | .wake w => if s.place w = .blocked then some (s.move w .waking) else none
  | .otherLocks => if s.mutex = none then some { s with mutex := some .other } else none
  | .otherUnlocks => if s.mutex = some .other then some { s with mutex := none } else none

/-- The writers, other than the one that takes the step, whose `Writer` it touches. -/
def accesses : Action W → List W
  | .acquire w => if s.place w = .locking then s.queue.head?.toList else []
  | .group w size => (s.queue.take (size + 1)).filter fun x => decide (x ≠ w)
  | .proceed w _ =>
    match s.place w with
    | .reporting _ | .promoting => s.queue.head?.toList.filter fun x => decide (x ≠ w)
    | .popped ready _ | .stored ready _ | .notifying ready _ => [ready]
    | _ => []
  | _ => []

end

end State

/-! ## What holds in every state -/

namespace Place

/-- The writer has the mutex. -/
def holds : Place W → Bool
  | .unlocking | .checking | .parking | .parked | .sleeping | .left true | .leading true | .grouped _
  | .reporting _ | .popped _ _ | .stored _ _ | .notifying _ _ | .promoting | .returning => true
  | _ => false

/-- The writer is in `await_turn`, or has left it with the mutex. -/
def awaits : Place W → Bool
  | .unlocking | .spinning | .watched | .relocking | .checking | .parking | .parked | .sleeping
  | .blocked | .waking | .left true => true
  | _ => false

/-- The writer acts as leader. -/
def leads : Place W → Bool
  | .leading _ | .grouped _ | .writing _ | .reporting _ | .popped _ _ | .stored _ _ | .notifying _ _
  | .promoting => true
  | _ => false

omit [DecidableEq W] in
theorem awaits_of_leads {p : Place W} (h : p.leads = true) : p.awaits = false := by
  cases p <;> first | rfl | cases h

end Place

/-- The states a writer may have at a place. -/
def Compatible : WriterState → Place W → Bool
  | .waiting, p => p.leads || match p with
    | .fresh | .locking | .unlocking | .spinning | .watched | .relocking | .checking | .parking
    | .returning | .returned => true
    | _ => false
  | .parked, p => match p with
    | .parked | .sleeping | .blocked | .waking => true
    | _ => false
  | .done, p => match p with
    | .spinning | .watched | .relocking | .checking | .parked | .blocked | .waking | .left _
    | .returning | .returned => true
    | _ => false
  | .leader, p => p.leads || match p with
    | .spinning | .watched | .relocking | .checking | .parked | .blocked | .waking | .left true
    | .returning | .returned => true
    | _ => false

namespace Compatible

omit [DecidableEq W]

variable {q p : Place W} {t : WriterState}

def states : List WriterState := [.waiting, .parked, .done, .leader]

/-- What holds of each state of a place, by computation: the equations of `Compatible`, one for
    each state and place, are slow to generate. -/
theorem of_all {f : WriterState → Bool} (hall : (states.all fun t => !Compatible t p || f t) = true)
    (hp : Compatible t p = true) : f t = true := by
  have hmem : t ∈ states := by cases t <;> simp [states]
  have himp := List.all_eq_true.mp hall t hmem
  rwa [hp] at himp

theorem mono (hall : (states.all fun t => !Compatible t q || Compatible t p) = true) :
    Compatible t q = true → Compatible t p = true :=
  of_all (f := fun t => Compatible t p) hall

theorem mono_of_ne {u : WriterState} (hne : t ≠ u)
    (hall : (states.all fun t => !Compatible t q || (t == u || Compatible t p)) = true)
    (hq : Compatible t q = true) : Compatible t p = true := by
  simpa [hne] using of_all (f := fun t => t == u || Compatible t p) hall hq

theorem state_eq {u : WriterState} (hp : Compatible t p = true)
    (hall : (states.all fun t => !Compatible t p || t == u) = true) : t = u :=
  eq_of_beq (of_all (f := fun t => t == u) hall hp)

theorem eq_of_leads (hp : p.leads = true) : Compatible t p = (t == .waiting || t == .leader) := by
  cases p <;> first | (cases t <;> rfl) | cases hp

/-- A writer that waits without the mutex can be answered and promoted. -/
theorem of_awaits (hawaits : p.awaits = true) (hfree : p.holds ≠ true)
    (ht : t = .done ∨ t = .leader) : Compatible t p = true := by
  cases p with
  | left locked =>
    cases locked with
    | true => exact absurd rfl hfree
    | false => cases hawaits
  | _ =>
    rcases ht with rfl | rfl <;>
      first | rfl | exact absurd rfl hfree | exact absurd hawaits Bool.false_ne_true

/-- A writer that has parked and is without the mutex sleeps. -/
theorem asleep (hp : Compatible .parked p = true) (hfree : p.holds ≠ true) :
    p = .blocked ∨ p = .waking := by
  cases p <;> first | exact .inl rfl | exact .inr rfl | exact absurd rfl hfree | cases hp

end Compatible

/-- The writer has been neither answered nor promoted. -/
def State.Pending (s : State W) (w : W) : Prop := s.state w = .waiting ∨ s.state w = .parked

/-- The queue and the writer at hand, for a leader at a place. -/
def LeadOk (s : State W) (l : W) : Place W → Prop
  | .leading _ => s.queue.head? = some l
  | .grouped last | .writing last => s.queue.head? = some l ∧ last ∈ s.queue
  | .reporting last => (l ∈ s.queue → s.queue.head? = some l) ∧ last ∈ s.queue
  | .popped r last => (l ∉ s.queue ∧ r ∉ s.queue ∧ r ≠ l) ∧ (r = last ∨ last ∈ s.queue) ∧
      (s.place r).awaits = true ∧ s.Pending r
  | .stored r last => (l ∉ s.queue ∧ r ∉ s.queue ∧ r ≠ l) ∧ (r = last ∨ last ∈ s.queue) ∧
      (s.place r).awaits = true ∧ s.Pending r ∧ s.answered r = true
  | .notifying r after => (l ∉ s.queue ∧ r ≠ l) ∧ (s.place r = .blocked ∨ s.place r = .waking) ∧
      ∀ last, after = .reporting last → last ∈ s.queue
  | .promoting => l ∉ s.queue
  | _ => True

structure Inv (s : State W) : Prop where
  mutex : ∀ w, s.mutex = some (.writer w) ↔ (s.place w).holds = true
  compatible : ∀ w, Compatible (s.state w) (s.place w) = true
  acting : ∀ w, (s.place w).leads = true ↔ s.acting = some w
  nodup : s.queue.Nodup
  queued : ∀ w ∈ s.queue, (s.place w).awaits = true ∨ s.acting = some w
  answered_out : ∀ w ∈ s.queue, s.state w ≠ .done
  promoted : ∀ w, s.state w = .leader → (s.place w).awaits = true → s.queue.head? = some w ∧
    ∀ l, s.acting = some l → s.place l = .notifying w .returning
  lead : ∀ l, s.acting = some l → LeadOk s l (s.place l)
  woken : ∀ w, s.place w = .blocked → s.state w = .parked ∨ s.notified w = true ∨
    ∃ l after, s.place l = .notifying w after
  answered : ∀ w, s.state w = .done → s.answered w = true
  moves : ∀ w, s.toDone w = (if s.state w = .done then 1 else 0) ∧
    s.toLeader w = (if s.state w = .leader then 1 else 0)

omit [DecidableEq W] in
theorem inv_init : Inv (State.init : State W) where
  mutex := fun w => by simp [State.init, Place.holds]
  compatible := fun w => rfl
  acting := fun w => by simp [State.init, Place.leads]
  nodup := List.nodup_nil
  queued := fun w h => absurd h List.not_mem_nil
  answered_out := fun w h => absurd h List.not_mem_nil
  promoted := fun w h => nomatch h
  lead := fun l h => nomatch h
  woken := fun w h => nomatch h
  answered := fun w h => nomatch h
  moves := fun w => ⟨rfl, rfl⟩

omit [DecidableEq W] in
/-- What a leader has to do with the other writers, across a change to those. -/
theorem LeadOk.frame {s s' : State W} {l : W} {p : Place W} (hlead : LeadOk s l p)
    (hqueue : s'.queue = s.queue) (hanswered : ∀ x, s.answered x = true → s'.answered x = true)
    (hpending : ∀ r, (s.place r).awaits = true → s.Pending r →
      (s'.place r).awaits = true ∧ s'.Pending r)
    (hnotifying : ∀ r after, p = .notifying r after → s'.place r = .blocked ∨ s'.place r = .waking) :
    LeadOk s' l p := by
  cases p with
  | popped r last =>
    obtain ⟨hout, hlast, haw, hpend⟩ := hlead
    obtain ⟨haw', hpend'⟩ := hpending r haw hpend
    exact ⟨by rwa [hqueue], by rwa [hqueue], haw', hpend'⟩
  | stored r last =>
    obtain ⟨hout, hlast, haw, hpend, hans⟩ := hlead
    obtain ⟨haw', hpend'⟩ := hpending r haw hpend
    exact ⟨by rwa [hqueue], by rwa [hqueue], haw', hpend', hanswered r hans⟩
  | notifying r after =>
    obtain ⟨hout, -, hlast⟩ := hlead
    exact ⟨by rwa [hqueue], hnotifying r after rfl, by rwa [hqueue]⟩
  | leading | grouped | writing | reporting | promoting => simpa only [LeadOk, hqueue] using hlead
  | _ => trivial

namespace Inv

variable {s : State W} (h : Inv s)

include h

/-! ### The mutex -/

theorem mutex_keep {w : W} {p : Place W} (hp : p.holds = (s.place w).holds) (x : W) :
    s.mutex = some (.writer x) ↔ (Function.update s.place w p x).holds = true := by
  rw [Function.update_apply]
  split_ifs with hx
  · rw [hp, hx, h.mutex]
  · exact h.mutex x

theorem mutex_release {w : W} {p : Place W} (hw : (s.place w).holds = true) (hp : p.holds = false)
    (x : W) : (none : Option (Holder W)) = some (.writer x) ↔
      (Function.update s.place w p x).holds = true := by
  rw [Function.update_apply]
  split_ifs with hx
  · simp [hp]
  · refine ⟨fun heq => (nomatch heq), fun hholds => ?_⟩
    rw [← h.mutex] at hholds hw
    rw [hw] at hholds
    exact absurd (Holder.writer.inj (Option.some.inj hholds)).symm hx

theorem mutex_take {w : W} {p : Place W} (hfree : s.mutex = none) (hp : p.holds = true) (x : W) :
    some (Holder.writer w) = some (.writer x) ↔ (Function.update s.place w p x).holds = true := by
  rw [Function.update_apply]
  split_ifs with hx
  · simp [hp, hx]
  · rw [← h.mutex, hfree]
    simp [Ne.symm hx]

omit [DecidableEq W] in
/-- Two writers do not have the mutex. -/
theorem holds_unique {w x : W} (hw : (s.place w).holds = true) (hx : (s.place x).holds = true) :
    w = x := by
  rw [← h.mutex] at hw hx
  rw [hw] at hx
  exact Holder.writer.inj (Option.some.inj hx)

omit [DecidableEq W] in
/-- A leader at a notification has the mutex, and the one it notifies does not run. -/
theorem notifying {l w : W} {after : After W} (hl : s.place l = .notifying w after) :
    s.acting = some l ∧ (s.place l).holds = true ∧ (s.place w = .blocked ∨ s.place w = .waking) := by
  have hact : s.acting = some l := (h.acting l).mp (by rw [hl]; rfl)
  have hlead := h.lead l hact
  rw [hl] at hlead
  exact ⟨hact, by rw [hl]; rfl, hlead.2.1⟩

/-! ### A writer that does not lead -/

/-- A step of a writer that does not lead touches only itself. -/
theorem own {w : W} (hw : s.acting ≠ some w) {p : Place W} {t : WriterState}
    {m : Option (Holder W)} {n : W → Bool}
    (hmutex : ∀ x, m = some (.writer x) ↔ (Function.update s.place w p x).holds = true)
    (hcompat : Compatible t p = true) (hleads : p.leads = false)
    (hawaits : (s.place w).awaits = true → s.state w ≠ .done → p.awaits = true)
    (hbefore : p.awaits = true → (s.place w).awaits = true)
    (hst : t = s.state w ∨ (s.state w = .waiting ∧ t = .parked))
    (hnotified : (∃ l after, s.place l = .notifying w after) → p = .blocked ∨ p = .waking)
    (hblocked : p = .blocked → t = .parked) (hn : ∀ x ≠ w, n x = s.notified x) :
    Inv { s with
      place := Function.update s.place w p, state := Function.update s.state w t, mutex := m
      notified := n } where
  mutex := hmutex
  compatible := fun x => by
    simp only [Function.update_apply]
    split_ifs
    · exact hcompat
    · exact h.compatible x
  acting := fun x => by
    simp only [Function.update_apply]
    split_ifs with hx
    · rw [hleads, hx]
      simp [hw]
    · exact h.acting x
  nodup := h.nodup
  queued := fun x hx => by
    simp only [Function.update_apply]
    split_ifs with hxw
    · subst hxw
      exact .inl (hawaits ((h.queued x hx).resolve_right hw) (h.answered_out x hx))
    · exact h.queued x hx
  answered_out := fun x hx => by
    simp only [Function.update_apply]
    split_ifs with hxw
    · subst hxw
      rcases hst with rfl | ⟨-, rfl⟩
      · exact h.answered_out x hx
      · exact fun heq => nomatch heq
    · exact h.answered_out x hx
  promoted := fun x hstate hplace => by
    have hold : s.state x = .leader ∧ (s.place x).awaits = true := by
      simp only [Function.update_apply] at hstate hplace
      split_ifs at hstate hplace with hxw
      · subst hxw
        rcases hst with rfl | ⟨-, rfl⟩
        · exact ⟨hstate, hbefore hplace⟩
        · cases hstate
      · exact ⟨hstate, hplace⟩
    obtain ⟨hhead, hall⟩ := h.promoted x hold.1 hold.2
    refine ⟨hhead, fun l hl => ?_⟩
    have hlw : l ≠ w := fun heq => hw (heq ▸ hl)
    simp only [Function.update_of_ne hlw]
    exact hall l hl
  lead := fun l hl => by
    have hlw : l ≠ w := fun heq => hw (heq ▸ hl)
    simp only [Function.update_of_ne hlw]
    refine (h.lead l hl).frame rfl (fun _ hx => hx) (fun r haw hpend => ?_) fun r after hplace => ?_
    · simp only [State.Pending, Function.update_apply]
      split_ifs with hrw
      · subst hrw
        refine ⟨hawaits haw fun heq => ?_, ?_⟩
        · rcases hpend with hpend | hpend <;> rw [heq] at hpend <;> cases hpend
        · rcases hst with rfl | ⟨-, rfl⟩
          · exact hpend
          · exact .inr rfl
      · exact ⟨haw, hpend⟩
    · simp only [Function.update_apply]
      split_ifs with hrw
      · subst hrw
        exact hnotified ⟨l, after, hplace⟩
      · exact (h.notifying hplace).2.2
  woken := fun x hx => by
    simp only [Function.update_apply] at hx ⊢
    split_ifs at hx ⊢ with hxw
    · exact .inl (hblocked hx)
    · rw [hn x hxw]
      rcases h.woken x hx with hpark | hnot | ⟨l, after, hl⟩
      · exact .inl hpark
      · exact .inr (.inl hnot)
      · have hlw : l ≠ w := fun heq => hw (heq ▸ (h.notifying hl).1)
        exact .inr (.inr ⟨l, after, by rw [if_neg hlw]; exact hl⟩)
  answered := fun x hx => by
    simp only [Function.update_apply] at hx
    split_ifs at hx with hxw
    · subst hxw
      rcases hst with rfl | ⟨-, rfl⟩
      · exact h.answered x hx
      · cases hx
    · exact h.answered x hx
  moves := fun x => by
    simp only [Function.update_apply]
    by_cases hxw : x = w
    · subst hxw
      rcases hst with rfl | ⟨hwait, rfl⟩
      · simpa using h.moves x
      · simpa [hwait] using h.moves x
    · simpa [hxw] using h.moves x

/-- The same where the writer's state and what was notified do not change. -/
theorem own_move {w : W} (hw : s.acting ≠ some w) {p : Place W} {m : Option (Holder W)}
    (hmutex : ∀ x, m = some (.writer x) ↔ (Function.update s.place w p x).holds = true)
    (hcompat : Compatible (s.state w) p = true) (hleads : p.leads = false)
    (hawaits : (s.place w).awaits = true → s.state w ≠ .done → p.awaits = true)
    (hbefore : p.awaits = true → (s.place w).awaits = true)
    (hnotified : (∃ l after, s.place l = .notifying w after) → p = .blocked ∨ p = .waking)
    (hblocked : p ≠ .blocked) : Inv { s.move w p with mutex := m } := by
  have := h.own hw (n := s.notified) hmutex hcompat hleads hawaits hbefore (.inl rfl) hnotified
    (fun heq => absurd heq hblocked) fun _ _ => rfl
  rwa [Function.update_eq_self] at this

omit [DecidableEq W] in
/-- A writer that is not asleep is not being notified. -/
theorem not_notifying {w : W} (hb : s.place w ≠ .blocked) (hw : s.place w ≠ .waking) :
    ¬ ∃ l after, s.place l = .notifying w after := by
  rintro ⟨l, after, hl⟩
  rcases (h.notifying hl).2.2 with heq | heq
  · exact hb heq
  · exact hw heq

omit [DecidableEq W] in
theorem acting_ne {w : W} (hw : (s.place w).leads = false) : s.acting ≠ some w := by
  rw [Ne, ← h.acting, hw]
  exact Bool.false_ne_true

omit [DecidableEq W] in
theorem compatible_at {w : W} {q : Place W} (hplace : s.place w = q) :
    Compatible (s.state w) q = true :=
  hplace ▸ h.compatible w

/-- A step from one place of `await_turn` to another place of it or out of it: all that is
    left to say is about the two places and the mutex. -/
theorem await_move {w : W} {q p : Place W} (hplace : s.place w = q) {m : Option (Holder W)}
    (hmutex : ∀ x, m = some (.writer x) ↔ (Function.update s.place w p x).holds = true)
    (hcompat : Compatible (s.state w) q = true → Compatible (s.state w) p = true)
    (hawake : q ≠ .blocked ∧ q ≠ .waking) (hleads : q.leads = false ∧ p.leads = false)
    (hawaits : s.state w ≠ .done → q.awaits = p.awaits) (hbefore : p.awaits = true → q.awaits = true)
    (hblocked : p ≠ .blocked) : Inv { s.move w p with mutex := m } := by
  subst hplace
  exact h.own_move (h.acting_ne hleads.1) hmutex (hcompat (h.compatible w)) hleads.2
    (fun haw hne => by rw [← hawaits hne]; exact haw) hbefore
    (fun hex => absurd hex (h.not_notifying hawake.1 hawake.2)) hblocked

theorem step_call {w : W} (hplace : s.place w = .fresh) : Inv (s.move w .locking) :=
  h.await_move hplace (h.mutex_keep (by rw [hplace]; rfl)) (Compatible.mono rfl) (by simp)
    ⟨rfl, rfl⟩ (fun _ => rfl) id (by simp)

theorem step_wake {w : W} (hplace : s.place w = .blocked) : Inv (s.move w .waking) :=
  h.own_move (h.acting_ne (by rw [hplace]; rfl)) (h.mutex_keep (by rw [hplace]; rfl))
    (Compatible.mono rfl (h.compatible_at hplace)) rfl (fun _ _ => rfl)
    (fun _ => by rw [hplace]; rfl) (fun _ => .inr rfl) (by simp)

theorem step_unlocking {w : W} (hplace : s.place w = .unlocking) : Inv (s.unlock w .spinning) :=
  h.await_move hplace (h.mutex_release (by rw [hplace]; rfl) rfl) (Compatible.mono rfl) (by simp)
    ⟨rfl, rfl⟩ (fun _ => rfl) (fun _ => rfl) (by simp)

theorem step_spinning {w : W} (hplace : s.place w = .spinning) {p : Place W}
    (hp : p = .watched ∨ p = .spinning) : Inv (s.move w p) := by
  rcases hp with rfl | rfl
  · exact h.await_move hplace (h.mutex_keep (by rw [hplace]; rfl)) (Compatible.mono rfl) (by simp)
      ⟨rfl, rfl⟩ (fun _ => rfl) (fun _ => rfl) (by simp)
  · exact h.await_move hplace (h.mutex_keep (by rw [hplace])) id (by simp) ⟨rfl, rfl⟩ (fun _ => rfl)
      id (by simp)

theorem step_watched {w : W} (hplace : s.place w = .watched) :
    Inv (s.move w (if s.state w = .done then .left false else .relocking)) := by
  split_ifs with hdone
  · exact h.await_move hplace (h.mutex_keep (by rw [hplace]; rfl)) (fun _ => by rw [hdone]; rfl)
      (by simp) ⟨rfl, rfl⟩ (fun hne => absurd hdone hne) (fun _ => rfl) (by simp)
  · exact h.await_move hplace (h.mutex_keep (by rw [hplace]; rfl)) (Compatible.mono rfl) (by simp)
      ⟨rfl, rfl⟩ (fun _ => rfl) (fun _ => rfl) (by simp)

theorem step_checking {w : W} (hplace : s.place w = .checking) :
    Inv (s.move w (if s.state w ≠ .waiting then .left true else .parking)) := by
  split_ifs with hstate
  · exact h.await_move hplace (h.mutex_keep (by rw [hplace]; rfl))
      (Compatible.mono_of_ne hstate rfl) (by simp) ⟨rfl, rfl⟩ (fun _ => rfl) (fun _ => rfl) (by simp)
  · exact h.await_move hplace (h.mutex_keep (by rw [hplace]; rfl))
      (fun _ => by rw [not_not.mp hstate]; rfl) (by simp) ⟨rfl, rfl⟩ (fun _ => rfl) (fun _ => rfl)
      (by simp)

theorem step_parked {w : W} (hplace : s.place w = .parked) :
    Inv (s.move w (if s.state w = .parked then .sleeping else .left true)) := by
  split_ifs with hstate
  · exact h.await_move hplace (h.mutex_keep (by rw [hplace]; rfl))
      (fun _ => by rw [hstate]; rfl) (by simp) ⟨rfl, rfl⟩ (fun _ => rfl) (fun _ => rfl) (by simp)
  · exact h.await_move hplace (h.mutex_keep (by rw [hplace]; rfl))
      (Compatible.mono_of_ne hstate rfl) (by simp) ⟨rfl, rfl⟩ (fun _ => rfl) (fun _ => rfl) (by simp)

/-- With the mutex taken at one of the locks of `await_turn`. -/
theorem step_relock {w : W} (hfree : s.mutex = none) {p : Place W}
    (hplace : (s.place w = .relocking ∧ p = .checking) ∨ (s.place w = .waking ∧ p = .parked)) :
    Inv { s.move w p with mutex := some (.writer w) } := by
  have hnone : ¬ ∃ l after, s.place l = .notifying w after := by
    rintro ⟨l, after, hl⟩
    have := (h.mutex l).mpr (h.notifying hl).2.1
    rw [hfree] at this
    cases this
  rcases hplace with ⟨hplace, rfl⟩ | ⟨hplace, rfl⟩
  all_goals
    exact h.own_move (h.acting_ne (by rw [hplace]; rfl)) (h.mutex_take hfree rfl)
      (Compatible.mono rfl (h.compatible_at hplace)) rfl (fun _ _ => rfl)
      (fun _ => by rw [hplace]; rfl) (fun hex => absurd hex hnone) (by simp)

theorem step_parking {w : W} (hplace : s.place w = .parking) :
    Inv ({ s with state := Function.update s.state w .parked }.move w .parked) := by
  have hstate : s.state w = .waiting := Compatible.state_eq (h.compatible_at hplace) rfl
  exact h.own (h.acting_ne (by rw [hplace]; rfl)) (n := s.notified) (h.mutex_keep (by rw [hplace]; rfl))
    rfl rfl (fun _ _ => rfl) (fun _ => by rw [hplace]; rfl) (.inr ⟨hstate, rfl⟩)
    (fun hex => absurd hex (h.not_notifying (by simp [hplace]) (by simp [hplace]))) (by simp)
    fun _ _ => rfl

/-- A writer blocks with the mutex until then in its hands, so its state is still parked. -/
theorem step_sleeping {w : W} (hplace : s.place w = .sleeping) :
    Inv ({ s with notified := Function.update s.notified w false }.unlock w .blocked) := by
  have hstate : s.state w = .parked := Compatible.state_eq (h.compatible_at hplace) rfl
  have := h.own (h.acting_ne (by rw [hplace]; rfl)) (n := Function.update s.notified w false)
    (h.mutex_release (w := w) (p := .blocked) (by rw [hplace]; rfl) rfl) (t := s.state w)
    (by rw [hstate]; rfl) rfl (fun _ _ => rfl) (fun _ => by rw [hplace]; rfl) (.inl rfl)
    (fun _ => .inl rfl) (fun _ => hstate) fun x hx => Function.update_of_ne hx ..
  rwa [Function.update_eq_self] at this

/-- A writer that was answered returns. -/
theorem step_left_done {w : W} {locked : Bool} (hplace : s.place w = .left locked)
    (hdone : s.state w = .done) : Inv (s.move w (if locked then .returning else .returned)) := by
  cases locked
  all_goals
    exact h.await_move hplace (h.mutex_keep (by rw [hplace]; rfl)) (fun _ => by rw [hdone]; rfl)
      (by simp) ⟨rfl, rfl⟩ (fun hne => absurd hdone hne) (fun haw => by cases haw) (by simp)

theorem step_returning {w : W} (hplace : s.place w = .returning) : Inv (s.unlock w .returned) :=
  h.await_move hplace (h.mutex_release (by rw [hplace]; rfl) rfl) (Compatible.mono rfl) (by simp)
    ⟨rfl, rfl⟩ (fun _ => rfl) id (by simp)

/-! ### The leader -/

omit [DecidableEq W] in
theorem compatible_lead {l : W} (hl : s.acting = some l) {p : Place W}
    (hp : p.leads = true ∨ p = .returning) : Compatible (s.state l) p = true := by
  have hc := h.compatible l
  rw [Compatible.eq_of_leads ((h.acting l).mpr hl)] at hc
  rcases hp with hp | rfl
  · rwa [Compatible.eq_of_leads hp]
  · exact Compatible.mono (q := .promoting) rfl (by rwa [Compatible.eq_of_leads rfl])

/-- A step of the leader that leaves the states as they are. -/
theorem leader {l : W} (hl : s.acting = some l) {p : Place W} {queue : List W}
    {m : Option (Holder W)} {answered : W → Bool}
    (hbefore : ∀ r after, s.place l ≠ .notifying r after)
    (hmutex : ∀ x, m = some (.writer x) ↔ (Function.update s.place l p x).holds = true)
    (hleads : p.leads = true) (hqueue : queue <:+ s.queue)
    (hanswered : ∀ x, s.answered x = true → answered x = true)
    (hlead : LeadOk { s.move l p with queue := queue, mutex := m, answered := answered } l p) :
    Inv { s.move l p with queue := queue, mutex := m, answered := answered } where
  mutex := hmutex
  compatible := fun x => by
    simp only [State.move, Function.update_apply]
    split_ifs with hx
    · subst hx
      exact h.compatible_lead hl (.inl hleads)
    · exact h.compatible x
  acting := fun x => by
    simp only [State.move, Function.update_apply]
    split_ifs with hx
    · simp [hleads, hl, hx]
    · exact h.acting x
  nodup := h.nodup.sublist hqueue.sublist
  queued := fun x hx => by
    simp only [State.move, Function.update_apply]
    split_ifs with hxl
    · exact .inr (hxl ▸ hl)
    · exact h.queued x (hqueue.mem hx)
  answered_out := fun x hx => h.answered_out x (hqueue.mem hx)
  promoted := fun x hstate hplace => by
    simp only [State.move, Function.update_apply] at hplace
    split_ifs at hplace with hxl
    · rw [Place.awaits_of_leads hleads] at hplace
      cases hplace
    · exact absurd ((h.promoted x hstate hplace).2 l hl) (hbefore x .returning)
  lead := fun l' hl' => by
    obtain rfl : l = l' := Option.some.inj (hl.symm.trans hl')
    simp only [State.move, Function.update_self] at hlead ⊢
    exact hlead
  woken := fun x hx => by
    simp only [State.move, Function.update_apply] at hx ⊢
    split_ifs at hx with hxl
    · rw [hx] at hleads
      cases hleads
    · rcases h.woken x hx with hpark | hnot | ⟨l', after, hl'⟩
      · exact .inl hpark
      · exact .inr (.inl hnot)
      · obtain rfl : l = l' := Option.some.inj (hl.symm.trans (h.notifying hl').1)
        exact absurd hl' (hbefore x after)
  answered := fun x hx => hanswered x (h.answered x hx)
  moves := h.moves

theorem step_leading_out {l : W} (hplace : s.place l = .leading true) :
    Inv (s.unlock l (.leading false)) := by
  have hl : s.acting = some l := (h.acting l).mp (by rw [hplace]; rfl)
  have hlead := h.lead l hl
  rw [hplace] at hlead
  exact h.leader hl (by simp [hplace]) (h.mutex_release (by rw [hplace]; rfl) rfl) rfl
    (List.suffix_refl _) (fun _ hx => hx) hlead

theorem step_leading_in {l : W} (hfree : s.mutex = none) (hplace : s.place l = .leading false) :
    Inv { s.move l (.leading true) with mutex := some (.writer l) } := by
  have hl : s.acting = some l := (h.acting l).mp (by rw [hplace]; rfl)
  have hlead := h.lead l hl
  rw [hplace] at hlead
  exact h.leader hl (by simp [hplace]) (h.mutex_take hfree rfl) rfl (List.suffix_refl _)
    (fun _ hx => hx) hlead

theorem step_group {l last : W} (hplace : s.place l = .leading true) (hlast : last ∈ s.queue) :
    Inv (s.move l (.grouped last)) := by
  have hl : s.acting = some l := (h.acting l).mp (by rw [hplace]; rfl)
  have hlead := h.lead l hl
  rw [hplace] at hlead
  exact h.leader hl (by simp [hplace]) (h.mutex_keep (by rw [hplace]; rfl)) rfl (List.suffix_refl _)
    (fun _ hx => hx) ⟨hlead, hlast⟩

theorem step_grouped {l last : W} (hplace : s.place l = .grouped last) :
    Inv (s.unlock l (.writing last)) ∧ Inv (s.move l (.reporting last)) := by
  have hl : s.acting = some l := (h.acting l).mp (by rw [hplace]; rfl)
  have hlead := h.lead l hl
  rw [hplace] at hlead
  refine ⟨?_, ?_⟩
  · exact h.leader hl (by simp [hplace]) (h.mutex_release (by rw [hplace]; rfl) rfl) rfl
      (List.suffix_refl _) (fun _ hx => hx) hlead
  · exact h.leader hl (by simp [hplace]) (h.mutex_keep (by rw [hplace]; rfl)) rfl
      (List.suffix_refl _) (fun _ hx => hx) ⟨fun _ => hlead.1, hlead.2⟩

theorem step_writing {l last : W} (hfree : s.mutex = none) (hplace : s.place l = .writing last) :
    Inv { s.move l (.reporting last) with mutex := some (.writer l) } := by
  have hl : s.acting = some l := (h.acting l).mp (by rw [hplace]; rfl)
  have hlead := h.lead l hl
  rw [hplace] at hlead
  exact h.leader hl (by simp [hplace]) (h.mutex_take hfree rfl) rfl (List.suffix_refl _)
    (fun _ hx => hx) ⟨fun _ => hlead.1, hlead.2⟩

omit [DecidableEq W] in
/-- While the leader is not about to notify, the others in the queue are still to be
    answered. -/
theorem pending {l x : W} (hl : s.acting = some l) (hnot : ∀ r a, s.place l ≠ .notifying r a)
    (hmem : x ∈ s.queue) (hne : x ≠ l) : (s.place x).awaits = true ∧ s.Pending x := by
  have hawaits : (s.place x).awaits = true :=
    (h.queued x hmem).resolve_right fun heq => hne (Option.some.inj (heq.symm.trans hl))
  refine ⟨hawaits, ?_⟩
  have hdone := h.answered_out x hmem
  have hleader : s.state x ≠ .leader := fun heq => hnot x .returning ((h.promoted x heq hawaits).2 l hl)
  unfold State.Pending
  cases hs : s.state x
  · exact .inl rfl
  · exact .inr rfl
  · exact absurd hs hdone
  · exact absurd hs hleader

/-- The leader takes the next writer of the group; its own comes first. -/
theorem step_pop {l last : W} (hplace : s.place l = .reporting last) {s' : State W}
    (hpop : s.pop l last = some s') : Inv s' := by
  have hl : s.acting = some l := (h.acting l).mp (by rw [hplace]; rfl)
  have hlead := h.lead l hl
  rw [hplace] at hlead
  obtain ⟨hfront, hlast⟩ := hlead
  have hnodup := h.nodup
  unfold State.pop at hpop
  cases hqueue : s.queue with
  | nil => simp [hqueue] at hpop
  | cons ready rest =>
    simp only [hqueue] at hpop hlast hnodup hfront
    have hsuffix : rest <:+ s.queue := hqueue ▸ List.suffix_cons ready rest
    obtain ⟨hready, -⟩ := List.nodup_cons.mp hnodup
    split_ifs at hpop with hown hend
    · obtain rfl := Option.some.inj hpop
      subst hown
      exact h.leader hl (by simp [hplace]) (h.mutex_keep (by rw [hplace]; rfl)) rfl hsuffix
        (fun _ hx => hx) hready
    · obtain rfl := Option.some.inj hpop
      subst hown
      exact h.leader hl (by simp [hplace]) (h.mutex_keep (by rw [hplace]; rfl)) rfl hsuffix
        (fun _ hx => hx) ⟨fun hmem => absurd hmem hready,
          (List.mem_cons.mp hlast).resolve_left (Ne.symm hend)⟩
    · obtain rfl := Option.some.inj hpop
      have hout : l ∉ rest := fun hmem => by
        have := hfront (List.mem_cons_of_mem _ hmem)
        exact hown (Option.some.inj this)
      obtain ⟨hawaits, hpending⟩ := h.pending hl (by simp [hplace]) (hqueue ▸ List.mem_cons_self) hown
      refine h.leader hl (by simp [hplace]) (h.mutex_keep (by rw [hplace]; rfl)) rfl hsuffix
        (fun _ hx => hx) ⟨⟨hout, hready, hown⟩, ?_, ?_, hpending⟩
      · exact (List.mem_cons.mp hlast).imp_left Eq.symm
      · simp only [State.move, Function.update_of_ne hown]
        exact hawaits

theorem step_popped {l r last : W} (hplace : s.place l = .popped r last) :
    Inv ({ s with answered := Function.update s.answered r true }.move l (.stored r last)) := by
  have hl : s.acting = some l := (h.acting l).mp (by rw [hplace]; rfl)
  have hlead := h.lead l hl
  rw [hplace] at hlead
  obtain ⟨hout, hlast, hawaits, hpending⟩ := hlead
  refine h.leader hl (by simp [hplace]) (h.mutex_keep (by rw [hplace]; rfl)) rfl (List.suffix_refl _)
    (fun x hx => ?_) ⟨hout, hlast, ?_, hpending, Function.update_self ..⟩
  · show Function.update s.answered r true x = true
    rw [Function.update_apply]
    split_ifs
    · rfl
    · exact hx
  · simp only [State.move, Function.update_of_ne hout.2.2]
    exact hawaits

omit [DecidableEq W] in
/-- While the leader has the mutex, no other writer has. -/
theorem holds_not {l r : W} (hholds : (s.place l).holds = true) (hne : r ≠ l) :
    (s.place r).holds ≠ true :=
  fun hr => hne (h.holds_unique hr hholds)

/-- **An answer or a promotion**: the leader exchanges the state of a writer that waits,
    and goes to a place `p`; `act` is who acts then. -/
theorem exchanged {l r : W} {new : WriterState} {p : Place W} {act : Option W}
    (hl : s.acting = some l) (hnot : ∀ x a, s.place l ≠ .notifying x a)
    (hholds : (s.place l).holds = true) (hne : r ≠ l) (hout : l ∉ s.queue)
    (hawaits : (s.place r).awaits = true) (hpending : s.Pending r)
    (hnew : (new = .done ∧ r ∉ s.queue ∧ s.answered r = true) ∨
      (new = .leader ∧ s.queue.head? = some r ∧ (act = some l → p = .notifying r .returning)))
    (hp : (p.leads = true ∧ act = some l) ∨ (p = .returning ∧ act = none)) (hpholds : p.holds = true)
    (hparked : s.state r = .parked ↔ ∃ after, p = .notifying r after)
    (hlead : ∃ after, (p = .notifying r after ∨ p = after.place) ∧
      ∀ last, after = .reporting last → last ∈ s.queue) :
    Inv { s with
      place := Function.update s.place l p, acting := act
      state := Function.update s.state r new
      toDone := if new = WriterState.done then Function.update s.toDone r (s.toDone r + 1) else s.toDone
      toLeader := if new = WriterState.leader then Function.update s.toLeader r (s.toLeader r + 1)
        else s.toLeader } where
  mutex := h.mutex_keep (by rw [hpholds, hholds])
  compatible := fun x => by
    simp only [Function.update_apply]
    split_ifs with hxr hxl hxl
    · exact absurd (hxr.symm.trans hxl) hne
    · subst hxr
      exact Compatible.of_awaits hawaits (h.holds_not hholds hne) (hnew.imp And.left And.left)
    · subst hxl
      exact h.compatible_lead hl (hp.imp And.left And.left)
    · exact h.compatible x
  acting := fun x => by
    simp only [Function.update_apply]
    split_ifs with hxl
    · subst hxl
      rcases hp with ⟨hleads, hact⟩ | ⟨rfl, hact⟩
      · simp [hleads, hact]
      · simp [Place.leads, hact]
    · rw [h.acting, hl]
      rcases hp with ⟨-, hact⟩ | ⟨-, hact⟩ <;> simp [hact, Ne.symm hxl]
  nodup := h.nodup
  queued := fun x hx => by
    have hxl : x ≠ l := fun heq => hout (heq ▸ hx)
    simp only [Function.update_of_ne hxl]
    exact .inl (h.pending hl hnot hx hxl).1
  answered_out := fun x hx => by
    simp only [Function.update_apply]
    split_ifs with hxr
    · subst hxr
      rcases hnew with ⟨-, hno, -⟩ | ⟨rfl, -⟩
      · exact absurd hx hno
      · exact fun heq => nomatch heq
    · exact h.answered_out x hx
  promoted := fun x hstate hplace => by
    simp only [Function.update_apply] at hstate hplace
    split_ifs at hstate hplace with hxr hxl hxl
    · exact absurd (hxr.symm.trans hxl) hne
    · subst hxr
      rcases hnew with ⟨rfl, -⟩ | ⟨-, hhead, hprom⟩
      · cases hstate
      · refine ⟨hhead, fun l' hl' => ?_⟩
        rcases hp with ⟨-, hact⟩ | ⟨-, hact⟩
        · obtain rfl : l = l' := Option.some.inj (hact.symm.trans hl')
          simp only [Function.update_self]
          exact hprom hact
        · rw [hact] at hl'
          cases hl'
    · rcases hp with ⟨hleads, -⟩ | ⟨rfl, -⟩
      · rw [Place.awaits_of_leads hleads] at hplace
        cases hplace
      · cases hplace
    · exact absurd ((h.promoted x hstate hplace).2 l hl) (hnot x .returning)
  lead := fun l' hl' => by
    rcases hp with ⟨-, hact⟩ | ⟨-, hact⟩
    · obtain rfl : l = l' := Option.some.inj (hact.symm.trans hl')
      simp only [Function.update_self]
      obtain ⟨after, rfl | rfl, hlast⟩ := hlead
      · refine ⟨⟨hout, hne⟩, ?_, hlast⟩
        simp only [Function.update_of_ne hne]
        have hc := h.compatible r
        rw [hparked.mpr ⟨after, rfl⟩] at hc
        exact Compatible.asleep hc (h.holds_not hholds hne)
      · cases after with
        | reporting last => exact ⟨fun hmem => absurd hmem hout, hlast last rfl⟩
        | promoting => exact hout
        | returning => trivial
    · rw [hact] at hl'
      cases hl'
  woken := fun x hx => by
    simp only [Function.update_apply] at hx ⊢
    by_cases hxl : x = l
    · rw [if_pos hxl] at hx
      rw [hx] at hpholds
      cases hpholds
    rw [if_neg hxl] at hx
    split_ifs with hxr
    · subst hxr
      have hs : s.state x = .parked := hpending.resolve_left fun hs => by
        have hc := h.compatible x
        rw [hs, hx] at hc
        cases hc
      obtain ⟨after, hafter⟩ := hparked.mp hs
      exact .inr (.inr ⟨l, after, by rw [if_pos rfl, hafter]⟩)
    · rcases h.woken x hx with hpark | hnotd | ⟨l', after, hl'⟩
      · exact .inl hpark
      · exact .inr (.inl hnotd)
      · obtain rfl : l = l' := Option.some.inj (hl.symm.trans (h.notifying hl').1)
        exact absurd hl' (hnot x after)
  answered := fun x hx => by
    simp only [Function.update_apply] at hx
    split_ifs at hx with hxr
    · subst hxr
      rcases hnew with ⟨-, -, hans⟩ | ⟨rfl, -⟩
      · exact hans
      · cases hx
    · exact h.answered x hx
  moves := fun x => by
    have hx := h.moves x
    by_cases hxr : x = r
    · subst hxr
      have hs : s.state x ≠ .done ∧ s.state x ≠ .leader := by
        rcases hpending with hs | hs <;> simp [hs]
      rw [if_neg hs.1, if_neg hs.2] at hx
      rcases hnew with ⟨rfl, -⟩ | ⟨rfl, -⟩ <;> simp [hx]
    · rcases hnew with ⟨rfl, -⟩ | ⟨rfl, -⟩ <;> simpa [hxr] using hx

/-- Both ways to go on after an exchange. -/
theorem step_exchange {l r : W} {new : WriterState} {after : After W} (hl : s.acting = some l)
    (hnot : ∀ x a, s.place l ≠ .notifying x a) (hholds : (s.place l).holds = true) (hne : r ≠ l)
    (hout : l ∉ s.queue) (hawaits : (s.place r).awaits = true) (hpending : s.Pending r)
    (hnew : (new = .done ∧ r ∉ s.queue ∧ s.answered r = true) ∨
      (new = .leader ∧ s.queue.head? = some r ∧ after = .returning))
    (hlast : ∀ last, after = .reporting last → last ∈ s.queue) :
    Inv (s.exchange l r new after) := by
  unfold State.exchange
  by_cases hparked : s.state r = .parked
  · rw [if_pos hparked]
    have hnew' : (new = .done ∧ r ∉ s.queue ∧ s.answered r = true) ∨
        (new = .leader ∧ s.queue.head? = some r ∧
          (s.acting = some l → Place.notifying r after = .notifying r .returning)) := by
      rcases hnew with hdone | ⟨hleader, hhead, rfl⟩
      · exact .inl hdone
      · exact .inr ⟨hleader, hhead, fun _ => rfl⟩
    exact h.exchanged hl hnot hholds hne hout hawaits hpending hnew' (.inl ⟨rfl, hl⟩) rfl
      ⟨fun _ => ⟨after, rfl⟩, fun _ => hparked⟩ ⟨after, .inl rfl, hlast⟩
  · rw [if_neg hparked]
    have hplace : (∀ x a, after.place ≠ .notifying x a) ∧ after.place.holds = true := by
      cases after <;> simp [After.place, Place.holds]
    have hnew' : (new = .done ∧ r ∉ s.queue ∧ s.answered r = true) ∨
        (new = .leader ∧ s.queue.head? = some r ∧
          ((if after = .returning then none else s.acting) = some l →
            after.place = .notifying r .returning)) := by
      rcases hnew with hdone | ⟨hleader, hhead, rfl⟩
      · exact .inl hdone
      · exact .inr ⟨hleader, hhead, by simp⟩
    have hp : (after.place.leads = true ∧ (if after = .returning then none else s.acting) = some l) ∨
        (after.place = .returning ∧ (if after = .returning then none else s.acting) = none) := by
      cases after <;> simp [After.place, Place.leads, hl]
    exact h.exchanged hl hnot hholds hne hout hawaits hpending hnew' hp hplace.2
      ⟨fun hs => absurd hs hparked, fun ⟨a, ha⟩ => absurd ha (hplace.1 r a)⟩ ⟨after, .inr rfl, hlast⟩

theorem step_stored {l r last : W} (hplace : s.place l = .stored r last) :
    Inv (s.exchange l r .done (if r = last then .promoting else .reporting last)) := by
  have hl : s.acting = some l := (h.acting l).mp (by rw [hplace]; rfl)
  have hlead := h.lead l hl
  rw [hplace] at hlead
  obtain ⟨⟨hout, hrout, hne⟩, hlast, hawaits, hpending, hans⟩ := hlead
  refine h.step_exchange hl (by simp [hplace]) (by rw [hplace]; rfl) hne hout hawaits hpending
    (.inl ⟨rfl, hrout, hans⟩) fun x hx => ?_
  split_ifs at hx with hend
  obtain rfl := After.reporting.inj hx
  exact hlast.resolve_left hend

theorem step_promoting {l front : W} {rest : List W} (hplace : s.place l = .promoting)
    (hqueue : s.queue = front :: rest) : Inv (s.exchange l front .leader .returning) := by
  have hl : s.acting = some l := (h.acting l).mp (by rw [hplace]; rfl)
  have hout := h.lead l hl
  rw [hplace] at hout
  have hmem : front ∈ s.queue := hqueue ▸ List.mem_cons_self
  have hne : front ≠ l := fun heq => hout (heq ▸ hmem)
  obtain ⟨hawaits, hpending⟩ := h.pending hl (by simp [hplace]) hmem hne
  exact h.step_exchange hl (by simp [hplace]) (by rw [hplace]; rfl) hne hout hawaits hpending
    (.inr ⟨rfl, by rw [hqueue]; rfl, rfl⟩) (by simp)

/-- The leader goes on after a notification, or stops acting with no one to promote. -/
theorem resumed {l : W} {after : After W} {n : W → Bool} (hl : s.acting = some l)
    (hholds : (s.place l).holds = true) (hout : l ∉ s.queue)
    (hlast : ∀ last, after = .reporting last → last ∈ s.queue)
    (hpromoted : ∀ x, s.place l = .notifying x .returning → after = .returning)
    (hn : ∀ x, s.notified x = true → n x = true)
    (hwoken : ∀ x a, s.place l = .notifying x a → s.place x = .blocked → n x = true) :
    Inv ({ s with notified := n }.resume l after) where
  mutex := h.mutex_keep (by rw [hholds]; cases after <;> rfl)
  compatible := fun x => by
    simp only [State.resume, State.move, Function.update_apply]
    split_ifs with hx
    · subst hx
      refine h.compatible_lead hl ?_
      cases after <;> simp [After.place, Place.leads]
    · exact h.compatible x
  acting := fun x => by
    simp only [State.resume, State.move, Function.update_apply]
    split_ifs with hx hret hret
    · simp [hret, After.place, Place.leads]
    · rw [hl, hx]
      cases after <;> simp_all [After.place, Place.leads]
    · rw [h.acting, hl]
      simp [Ne.symm hx]
    · exact h.acting x
  nodup := h.nodup
  queued := fun x hx => by
    have hxl : x ≠ l := fun heq => hout (heq ▸ hx)
    simp only [State.resume, State.move, Function.update_of_ne hxl]
    exact .inl ((h.queued x hx).resolve_right fun heq => hxl (Option.some.inj (heq.symm.trans hl)))
  answered_out := h.answered_out
  promoted := fun x hstate hplace => by
    simp only [State.resume, State.move, Function.update_apply] at hplace
    split_ifs at hplace with hxl
    · cases after <;> cases hplace
    · obtain ⟨hhead, hall⟩ := h.promoted x hstate hplace
      refine ⟨hhead, fun l' hl' => ?_⟩
      simp only [State.resume, hpromoted x (hall l hl), if_true] at hl'
      cases hl'
  lead := fun l' hl' => by
    simp only [State.resume, State.move] at hl' ⊢
    split_ifs at hl' with hret
    obtain rfl : l = l' := Option.some.inj (hl.symm.trans hl')
    simp only [Function.update_self]
    cases after with
    | reporting last => exact ⟨fun hmem => absurd hmem hout, hlast last rfl⟩
    | promoting => exact hout
    | returning => trivial
  woken := fun x hx => by
    simp only [State.resume, State.move, Function.update_apply] at hx ⊢
    split_ifs at hx with hxl
    · cases after <;> cases hx
    · rcases h.woken x hx with hpark | hnot | ⟨l', a, hl'⟩
      · exact .inl hpark
      · exact .inr (.inl (hn x hnot))
      · obtain rfl : l = l' := Option.some.inj (hl.symm.trans (h.notifying hl').1)
        exact .inr (.inl (hwoken x a hl' hx))
  answered := h.answered
  moves := h.moves

theorem step_notifying {l r : W} {after : After W} (hplace : s.place l = .notifying r after) :
    Inv (s.notify l r after) := by
  have hl : s.acting = some l := (h.acting l).mp (by rw [hplace]; rfl)
  have hlead := h.lead l hl
  rw [hplace] at hlead
  obtain ⟨⟨hout, -⟩, -, hlast⟩ := hlead
  refine h.resumed hl (by rw [hplace]; rfl) hout hlast (fun x hx => ?_) (fun x hx => ?_)
    fun x a hx hblocked => ?_
  · rw [hplace] at hx
    exact (Place.notifying.inj hx).2
  · split_ifs
    · rw [Function.update_apply]
      split_ifs
      · rfl
      · exact hx
    · exact hx
  · rw [hplace] at hx
    obtain ⟨rfl, -⟩ := Place.notifying.inj hx
    rw [if_pos hblocked, Function.update_self]

theorem step_finish {l : W} (hplace : s.place l = .promoting) : Inv (s.resume l .returning) := by
  have hl : s.acting = some l := (h.acting l).mp (by rw [hplace]; rfl)
  have hout := h.lead l hl
  rw [hplace] at hout
  exact h.resumed (n := s.notified) hl (by rw [hplace]; rfl) hout (by simp) (by simp [hplace])
    (fun _ hx => hx) (by simp [hplace])

/-! ### A new leader -/

/-- A writer without a leader before it becomes the leader, at the front of the queue. -/
theorem led {w : W} (hnone : s.acting = none) (hstate : s.state w = .waiting ∨ s.state w = .leader)
    {queue : List W} {m : Option (Holder W)} (hqueue : queue = s.queue ∨ s.queue = [] ∧ queue = [w])
    (hhead : queue.head? = some w)
    (hmutex : ∀ x, m = some (.writer x) ↔ (Function.update s.place w (.leading true) x).holds = true) :
    Inv ({ s with queue := queue, mutex := m }.lead w true) where
  mutex := hmutex
  compatible := fun x => by
    simp only [State.lead, State.move, Function.update_apply]
    split_ifs with hx
    · subst hx
      rcases hstate with hs | hs <;> rw [hs] <;> rfl
    · exact h.compatible x
  acting := fun x => by
    simp only [State.lead, State.move, Function.update_apply]
    split_ifs with hx
    · simp [Place.leads, hx]
    · rw [h.acting, hnone]
      simp [Ne.symm hx]
  nodup := by
    rcases hqueue with rfl | ⟨-, rfl⟩
    · exact h.nodup
    · exact List.nodup_singleton w
  queued := fun x hx => by
    simp only [State.lead, State.move, Function.update_apply] at hx ⊢
    split_ifs with hxw
    · exact .inr (congrArg some hxw.symm)
    · rcases hqueue with rfl | ⟨-, rfl⟩
      · exact .inl ((h.queued x hx).resolve_right (by rw [hnone]; simp))
      · exact absurd (List.mem_singleton.mp hx) hxw
  answered_out := fun x hx => by
    rcases hqueue with rfl | ⟨-, rfl⟩
    · exact h.answered_out x hx
    · obtain rfl := List.mem_singleton.mp hx
      show s.state x ≠ .done
      rcases hstate with hs | hs <;> rw [hs] <;> simp
  promoted := fun x hs hplace => by
    simp only [State.lead, State.move, Function.update_apply] at hplace
    split_ifs at hplace with hxw
    · cases hplace
    · have hx := (h.promoted x hs hplace).1
      rcases hqueue with rfl | ⟨hempty, -⟩
      · exact absurd (Option.some.inj (hx.symm.trans hhead)) hxw
      · rw [hempty] at hx
        cases hx
  lead := fun l hl => by
    obtain rfl : w = l := Option.some.inj hl
    simp only [State.lead, State.move, Function.update_self]
    exact hhead
  woken := fun x hx => by
    simp only [State.lead, State.move, Function.update_apply] at hx ⊢
    split_ifs at hx with hxw
    rcases h.woken x hx with hpark | hnot | ⟨l, a, hl⟩
    · exact .inl hpark
    · exact .inr (.inl hnot)
    · have := (h.notifying hl).1
      rw [hnone] at this
      cases this
  answered := h.answered
  moves := h.moves

omit [DecidableEq W] in
theorem left_state {w : W} {locked : Bool} (hplace : s.place w = .left locked) :
    (s.state w = .done ∧ s.answered w = true) ∨ (s.state w = .leader ∧ locked = true) := by
  have hc := h.compatible_at hplace
  cases hs : s.state w with
  | waiting | parked =>
    rw [hs] at hc
    cases hc
  | done => exact .inl ⟨rfl, h.answered w hs⟩
  | leader =>
    rw [hs] at hc
    cases locked with
    | true => exact .inr ⟨rfl, rfl⟩
    | false => cases hc

omit [DecidableEq W] in
/-- A writer that leaves `await_turn` without an answer was promoted, and has the mutex; no one
    leads. -/
theorem left_promoted {w : W} {locked : Bool} (hplace : s.place w = .left locked)
    (hdone : s.state w ≠ .done) :
    s.state w = .leader ∧ locked = true ∧ s.queue.head? = some w ∧ s.acting = none := by
  obtain ⟨hs, rfl⟩ := (h.left_state hplace).resolve_left fun hd => hdone hd.1
  obtain ⟨hhead, hall⟩ := h.promoted w hs (by rw [hplace]; rfl)
  refine ⟨hs, rfl, hhead, ?_⟩
  by_contra hne
  obtain ⟨l, hl⟩ := Option.ne_none_iff_exists'.mp hne
  have hnot := hall l hl
  have hlw := h.holds_unique (h.notifying hnot).2.1 (by rw [hplace]; rfl)
  rw [hlw, hplace] at hnot
  cases hnot

theorem step_left_leader {w : W} {locked : Bool} (hplace : s.place w = .left locked)
    (hdone : s.state w ≠ .done) : Inv (s.lead w locked) := by
  obtain ⟨hs, rfl, hhead, hnone⟩ := h.left_promoted hplace hdone
  exact h.led hnone (.inr hs) (.inl rfl) hhead (h.mutex_keep (by rw [hplace]; rfl))

omit [DecidableEq W] in
/-- A leader without the mutex is in front of the queue. -/
theorem leader_free {l : W} (hfree : s.mutex = none) (hl : s.acting = some l) :
    s.queue.head? = some l ∧ (s.place l = .leading false ∨ ∃ last, s.place l = .writing last ∧ last ∈ s.queue) := by
  have hleads := (h.acting l).mpr hl
  have hholds : (s.place l).holds ≠ true := by
    rw [Ne, ← h.mutex, hfree]
    simp
  have hlead := h.lead l hl
  cases hplace : s.place l with
  | leading locked =>
    rw [hplace] at hlead hholds
    cases locked with
    | true => exact absurd rfl hholds
    | false => exact ⟨hlead, .inl rfl⟩
  | writing last =>
    rw [hplace] at hlead
    exact ⟨hlead.1, .inr ⟨last, rfl, hlead.2⟩⟩
  | grouped | reporting | popped | stored | notifying | promoting =>
    rw [hplace] at hholds
    exact absurd rfl hholds
  | _ =>
    rw [hplace] at hleads
    cases hleads

omit [DecidableEq W] in
/-- With the mutex free and no one in the queue, no one leads. -/
theorem no_leader (hfree : s.mutex = none) (hempty : s.queue = []) : s.acting = none := by
  by_contra hne
  obtain ⟨l, hl⟩ := Option.ne_none_iff_exists'.mp hne
  have := (h.leader_free hfree hl).1
  rw [hempty] at this
  cases this

/-- A writer that joins an empty queue leads at once. -/
theorem step_join_front {w : W} (hfree : s.mutex = none) (hplace : s.place w = .locking)
    (hempty : s.queue = []) : Inv ({ s with mutex := some (.writer w), queue := [w] }.lead w true) := by
  have hs : s.state w = .waiting := Compatible.state_eq (h.compatible_at hplace) rfl
  exact h.led (h.no_leader hfree hempty) (.inl hs) (.inr ⟨hempty, rfl⟩) rfl (h.mutex_take hfree rfl)

/-- A writer that joins a queue waits in it. -/
theorem step_join {w : W} (hfree : s.mutex = none) (hplace : s.place w = .locking)
    (hne : s.queue ≠ []) {p : Place W} (hp : p = .unlocking ∨ p = .checking) :
    Inv ({ s with mutex := some (.writer w), queue := s.queue ++ [w] }.move w p) := by
  have hs : s.state w = .waiting := Compatible.state_eq (h.compatible_at hplace) rfl
  have hact : s.acting ≠ some w := h.acting_ne (by rw [hplace]; rfl)
  have hout : w ∉ s.queue := fun hmem => by
    have := (h.queued w hmem).resolve_right hact
    rw [hplace] at this
    cases this
  have hhead : (s.queue ++ [w]).head? = s.queue.head? := List.head?_append_of_ne_nil _ hne
  have hwaits : p.awaits = true ∧ p.holds = true ∧ p.leads = false ∧ p ≠ .blocked := by
    rcases hp with rfl | rfl <;> exact ⟨rfl, rfl, rfl, by simp⟩
  exact {
    mutex := h.mutex_take hfree hwaits.2.1
    compatible := fun x => by
      simp only [State.move, Function.update_apply]
      split_ifs with hx
      · rw [hx, hs]
        rcases hp with rfl | rfl <;> rfl
      · exact h.compatible x
    acting := fun x => by
      simp only [State.move, Function.update_apply]
      split_ifs with hx
      · rw [hwaits.2.2.1, hx]
        simp [hact]
      · exact h.acting x
    nodup := h.nodup.append (List.nodup_singleton _) (List.disjoint_singleton.mpr hout)
    queued := fun x hx => by
      simp only [State.move, Function.update_apply]
      split_ifs with hxw
      · exact .inl hwaits.1
      · exact h.queued x ((List.mem_append.mp hx).resolve_right (by simpa using hxw))
    answered_out := fun x hx => by
      rcases List.mem_append.mp hx with hx | hx
      · exact h.answered_out x hx
      · obtain rfl := List.mem_singleton.mp hx
        show s.state x ≠ .done
        rw [hs]
        simp
    promoted := fun x hstate haw => by
      simp only [State.move, Function.update_apply] at haw ⊢
      split_ifs at haw with hxw
      · subst hxw
        rw [show s.state x = .leader from hstate] at hs
        cases hs
      · obtain ⟨hx, hall⟩ := h.promoted x hstate haw
        refine ⟨hhead.trans hx, fun l hl => ?_⟩
        rw [if_neg fun heq : l = w => hact (heq ▸ hl)]
        exact hall l hl
    lead := fun l hl => by
      have hlw : l ≠ w := fun heq => hact (heq ▸ hl)
      simp only [State.move, Function.update_of_ne hlw]
      obtain ⟨hfront, hplace | ⟨last, hplace, hlast⟩⟩ := h.leader_free hfree hl
      · rw [hplace]
        exact hhead.trans hfront
      · rw [hplace]
        exact ⟨hhead.trans hfront, List.mem_append_left _ hlast⟩
    woken := fun x hx => by
      simp only [State.move, Function.update_apply] at hx ⊢
      split_ifs at hx with hxw
      · exact absurd hx hwaits.2.2.2
      · rcases h.woken x hx with hpark | hnot | ⟨l, a, hl⟩
        · exact .inl hpark
        · exact .inr (.inl hnot)
        · refine .inr (.inr ⟨l, a, ?_⟩)
          rw [if_neg fun heq : l = w => hact (heq ▸ (h.notifying hl).1)]
          exact hl
    answered := h.answered
    moves := h.moves }

/-! ### Every step -/

omit [DecidableEq W] in
/-- Another thread takes or leaves the mutex. -/
theorem step_other {m : Option (Holder W)} (hm : ∀ w, m ≠ some (.writer w))
    (hs : ∀ w, s.mutex ≠ some (.writer w)) : Inv { s with mutex := m } :=
  { h with
    mutex := fun w => by
      rw [← h.mutex]
      simp [hm w, hs w]
    lead := h.lead }

theorem step_acquire {sync batchless : W → Bool} {w : W} {s' : State W}
    (hstep : s.acquire sync batchless w = some s') : Inv s' := by
  simp only [State.acquire, Option.ite_none_right_eq_some] at hstep
  obtain ⟨hfree, hstep⟩ := hstep
  cases hplace : s.place w with
  | locking =>
    simp only [hplace] at hstep
    cases hqueue : s.queue with
    | nil =>
      simp only [hqueue] at hstep
      obtain rfl := Option.some.inj hstep
      exact h.step_join_front hfree hplace hqueue
    | cons front rest =>
      simp only [hqueue] at hstep
      obtain rfl := Option.some.inj hstep
      have hp : ∀ b : Bool, (if b then (.unlocking : Place W) else .checking) = .unlocking ∨
          (if b then (.unlocking : Place W) else .checking) = .checking := by
        intro b
        cases b <;> simp
      have := h.step_join hfree hplace (by rw [hqueue]; simp) (hp (!sync front && !batchless front))
      rwa [hqueue] at this
  | relocking =>
    simp only [hplace] at hstep
    obtain rfl := Option.some.inj hstep
    exact h.step_relock hfree (.inl ⟨hplace, rfl⟩)
  | waking =>
    simp only [hplace] at hstep
    obtain rfl := Option.some.inj hstep
    exact h.step_relock hfree (.inr ⟨hplace, rfl⟩)
  | leading locked =>
    cases locked with
    | true => simp [hplace] at hstep
    | false =>
      simp only [hplace] at hstep
      obtain rfl := Option.some.inj hstep
      exact h.step_leading_in hfree hplace
  | writing last =>
    simp only [hplace] at hstep
    obtain rfl := Option.some.inj hstep
    exact h.step_writing hfree hplace
  | _ => simp [hplace] at hstep

theorem step_proceed {w : W} {choice : Bool} {s' : State W} (hstep : s.proceed w choice = some s') :
    Inv s' := by
  unfold State.proceed at hstep
  cases hplace : s.place w with
  | unlocking =>
    simp only [hplace] at hstep
    obtain rfl := Option.some.inj hstep
    exact h.step_unlocking hplace
  | spinning =>
    simp only [hplace] at hstep
    obtain rfl := Option.some.inj hstep
    refine h.step_spinning hplace ?_
    split_ifs
    · exact .inl rfl
    · exact .inr rfl
  | watched =>
    simp only [hplace] at hstep
    obtain rfl := Option.some.inj hstep
    exact h.step_watched hplace
  | checking =>
    simp only [hplace] at hstep
    obtain rfl := Option.some.inj hstep
    exact h.step_checking hplace
  | parking =>
    simp only [hplace] at hstep
    obtain rfl := Option.some.inj hstep
    exact h.step_parking hplace
  | parked =>
    simp only [hplace] at hstep
    obtain rfl := Option.some.inj hstep
    exact h.step_parked hplace
  | sleeping =>
    simp only [hplace] at hstep
    obtain rfl := Option.some.inj hstep
    exact h.step_sleeping hplace
  | left locked =>
    simp only [hplace] at hstep
    by_cases hdone : s.state w = .done
    · rw [if_pos hdone] at hstep
      obtain rfl := Option.some.inj hstep
      exact h.step_left_done hplace hdone
    · rw [if_neg hdone] at hstep
      obtain rfl := Option.some.inj hstep
      exact h.step_left_leader hplace hdone
  | leading locked =>
    cases locked with
    | false => simp [hplace] at hstep
    | true =>
      simp only [hplace, Option.ite_none_right_eq_some] at hstep
      obtain rfl := Option.some.inj hstep.2
      exact h.step_leading_out hplace
  | grouped last =>
    simp only [hplace] at hstep
    split_ifs at hstep
    · obtain rfl := Option.some.inj hstep
      exact (h.step_grouped hplace).1
    · obtain rfl := Option.some.inj hstep
      exact (h.step_grouped hplace).2
  | reporting last =>
    simp only [hplace] at hstep
    exact h.step_pop hplace hstep
  | popped r last =>
    simp only [hplace] at hstep
    obtain rfl := Option.some.inj hstep
    exact h.step_popped hplace
  | stored r last =>
    simp only [hplace] at hstep
    obtain rfl := Option.some.inj hstep
    exact h.step_stored hplace
  | notifying r after =>
    simp only [hplace] at hstep
    obtain rfl := Option.some.inj hstep
    exact h.step_notifying hplace
  | promoting =>
    simp only [hplace] at hstep
    cases hqueue : s.queue with
    | nil =>
      simp only [hqueue] at hstep
      obtain rfl := Option.some.inj hstep
      exact h.step_finish hplace
    | cons front rest =>
      simp only [hqueue] at hstep
      obtain rfl := Option.some.inj hstep
      exact h.step_promoting hplace hqueue
  | returning =>
    simp only [hplace] at hstep
    obtain rfl := Option.some.inj hstep
    exact h.step_returning hplace
  | _ => simp [hplace] at hstep

/-- **One step.** -/
theorem step {sync batchless : W → Bool} {a : Action W} {s' : State W}
    (hstep : s.step sync batchless a = some s') : Inv s' := by
  cases a with
  | call w =>
    simp only [State.step, Option.ite_none_right_eq_some, Option.some.injEq] at hstep
    obtain ⟨hplace, rfl⟩ := hstep
    exact h.step_call hplace
  | acquire w => exact h.step_acquire hstep
  | proceed w choice => exact h.step_proceed hstep
  | group w size =>
    simp only [State.step, State.formGroup] at hstep
    split at hstep
    · rename_i last hplace hlast
      simp only [Option.ite_none_right_eq_some, Option.some.injEq] at hstep
      obtain ⟨-, rfl⟩ := hstep
      exact h.step_group hplace (List.mem_of_getElem? hlast)
    · cases hstep
  | wake w =>
    simp only [State.step, Option.ite_none_right_eq_some, Option.some.injEq] at hstep
    obtain ⟨hplace, rfl⟩ := hstep
    exact h.step_wake hplace
  | otherLocks =>
    simp only [State.step, Option.ite_none_right_eq_some, Option.some.injEq] at hstep
    obtain ⟨hfree, rfl⟩ := hstep
    exact h.step_other (by simp) (by rw [hfree]; simp)
  | otherUnlocks =>
    simp only [State.step, Option.ite_none_right_eq_some, Option.some.injEq] at hstep
    obtain ⟨hother, rfl⟩ := hstep
    exact h.step_other (by simp) (by rw [hother]; simp)

/-! ### What follows -/

omit [DecidableEq W] in
/-- A writer in the queue has not returned. -/
theorem not_returned {w : W} (hmem : w ∈ s.queue) : s.place w ≠ .returned := by
  intro heq
  rcases h.queued w hmem with hawaits | hact
  · rw [heq] at hawaits
    cases hawaits
  · have := (h.acting w).mpr hact
    rw [heq] at this
    cases this

/-- Who is touched has not returned. -/
theorem accesses_alive {a : Action W} {w : W} (hmem : w ∈ s.accesses a) : s.place w ≠ .returned := by
  have hhead : ∀ w ∈ s.queue.head?.toList, s.place w ≠ .returned := fun w hw =>
    h.not_returned (List.mem_of_mem_head? (Option.mem_toList.mp hw))
  cases a with
  | acquire l =>
    simp only [State.accesses] at hmem
    split_ifs at hmem
    · exact hhead w hmem
    · cases hmem
  | group l size =>
    exact h.not_returned (List.mem_of_mem_take (List.mem_of_mem_filter hmem))
  | proceed l choice =>
    have hawake : (s.place w).awaits = true → s.place w ≠ .returned := by
      intro hawaits heq
      rw [heq] at hawaits
      cases hawaits
    simp only [State.accesses] at hmem
    split at hmem
    · exact hhead w (List.mem_of_mem_filter hmem)
    · exact hhead w (List.mem_of_mem_filter hmem)
    · rename_i r last hplace
      obtain rfl := List.mem_singleton.mp hmem
      have hl := (h.acting l).mp (by rw [hplace]; rfl)
      have hlead := h.lead l hl
      rw [hplace] at hlead
      exact hawake hlead.2.2.1
    · rename_i r last hplace
      obtain rfl := List.mem_singleton.mp hmem
      have hl := (h.acting l).mp (by rw [hplace]; rfl)
      have hlead := h.lead l hl
      rw [hplace] at hlead
      exact hawake hlead.2.2.1
    · rename_i r after hplace
      obtain rfl := List.mem_singleton.mp hmem
      rcases (h.notifying hplace).2.2 with heq | heq <;> rw [heq] <;> simp
    · cases hmem
  | call | wake | otherLocks | otherUnlocks => cases hmem

end Inv

theorem inv_run {sync batchless : W → Bool} {as : List (Action W)} {s : State W}
    (hrun : Lib.run (State.step sync batchless) State.init as = some s) : Inv s :=
  Lib.run_invariant _ (fun _ _ _ h hstep => h.step hstep) inv_init hrun

/-- **Writers and their leader**, in every state of every run of any number of writers: a
    step touches no writer that has returned; a writer blocked in its wait with an answer
    or a promotion was notified since, or the leader is about to notify it; each writer
    is moved to done and to leader at most once, and leaves `await_turn` in one of these
    states; one that leaves it without the mutex is done and has its status; and at most
    one writer acts as leader, which finds in the queue what it answers. -/
theorem writers_answered (sync batchless : W → Bool) (as : List (Action W)) (s : State W)
    (hrun : Lib.run (State.step sync batchless) State.init as = some s) :
    (∀ a w, w ∈ s.accesses a → s.place w ≠ .returned) ∧
    (∀ w, s.place w = .blocked → s.state w = .done ∨ s.state w = .leader →
      s.notified w = true ∨ ∃ l after, s.place l = .notifying w after ∧ s.mutex = some (.writer l)) ∧
    (∀ w, s.toDone w ≤ 1 ∧ s.toLeader w ≤ 1) ∧
    (∀ w locked, s.place w = .left locked → s.state w = .done ∨ s.state w = .leader) ∧
    (∀ w, s.place w = .left false → s.state w = .done ∧ s.answered w = true) ∧
    (∀ w x, (s.place w).leads = true → (s.place x).leads = true → w = x) ∧
    (∀ w last, s.place w = .reporting last → s.queue ≠ []) := by
  have h := inv_run hrun
  refine ⟨fun a w => h.accesses_alive, fun w hblocked hstate => ?_, fun w => ?_,
    fun w locked hplace => ?_, fun w hplace => ?_, fun w x hw hx => ?_, fun w last hplace => ?_⟩
  · rcases h.woken w hblocked with hpark | hnot | ⟨l, after, hl⟩
    · rcases hstate with hs | hs <;> rw [hs] at hpark <;> cases hpark
    · exact .inl hnot
    · exact .inr ⟨l, after, hl, (h.mutex l).mpr (h.notifying hl).2.1⟩
  · obtain ⟨hdone, hleader⟩ := h.moves w
    rw [hdone, hleader]
    constructor <;> split_ifs <;> simp
  · exact (h.left_state hplace).imp And.left And.left
  · rcases h.left_state hplace with hdone | ⟨-, hlocked⟩
    · exact hdone
    · cases hlocked
  · exact Option.some.inj (((h.acting w).mp hw).symm.trans ((h.acting x).mp hx))
  · have hlead := h.lead w ((h.acting w).mp (by rw [hplace]; rfl))
    rw [hplace] at hlead
    exact List.ne_nil_of_mem hlead.2

/-- Two writers join behind a leader: one parks and is answered, the other spins, is
    promoted, and leads. -/
def threeWriters : List (Action ℕ) :=
  [.call 0, .call 1, .call 2, .acquire 0, .proceed 0 true, .acquire 1, .proceed 1 false,
    .acquire 2, .proceed 2 false, .proceed 1 true, .proceed 1 false, .acquire 1, .proceed 1 false,
    .proceed 1 false, .proceed 1 false, .proceed 1 false, .acquire 0, .group 0 2, .proceed 0 true,
    .acquire 0, .proceed 0 false, .proceed 0 false, .proceed 0 false, .proceed 0 false,
    .proceed 0 false, .proceed 0 false, .proceed 0 false, .wake 1, .acquire 1, .proceed 1 false,
    .proceed 1 false, .proceed 1 false, .proceed 2 false, .proceed 2 false, .acquire 2,
    .proceed 2 false, .proceed 2 false]

theorem writers_answered_three :
    ∃ s, Lib.run (State.step (fun _ => false) fun _ => false) State.init threeWriters = some s ∧
      s.place 1 = .returned ∧ s.place 2 = .leading true ∧ s.toDone 1 ≤ 1 ∧ s.toLeader 2 ≤ 1 := by
  have heval : (Lib.run (State.step (fun _ => false) fun _ => false) State.init threeWriters).map
      (fun s => (s.place 1, s.place 2)) = some (.returned, .leading true) := by decide +kernel
  obtain ⟨s, hs, heq⟩ := Option.map_eq_some_iff.mp heval
  obtain ⟨h1, h2⟩ := Prod.mk.inj heq
  have hmoves := (writers_answered (fun _ => false) (fun _ => false) threeWriters s hs).2.2.1
  exact ⟨s, hs, h1, h2, (hmoves 1).1, (hmoves 2).2⟩

end Writers

end Ambar
