import Ambar.Lib.Trace
import Ambar.Engine.Step

/-!
# The background thread and those who wait for it

One thread flushes and compacts (`src/db_impl.cpp`, lines 1031–1240). It is scheduled by
`maybe_schedule_compaction`, works through one round at a time with the mutex released
for most of it, and tells everybody at the end of the round. Writers wait for it to make
room (lines 755–852), `compact_range` waits for its request to be served and
`wait_for_background_work` for the round to end (lines 1548–1632). A request of
`compact_range` is on its caller's stack; the thread is handed a pointer to it through the
slot `manual_compaction_`.

A step is what one thread does from taking the mutex to giving it up, so the states are
those in which the mutex is free.

* `Effect.of_step`: what a step is.
* `WorkEffect.workStep`: what a step of the background thread does to requests and slot.
-/

namespace Ambar

namespace Background

variable {T : Type*}

/-! ## The threads -/

/-- Which wait on `background_work_finished_` a thread is in: none; for room in
    `make_room_for_write`; for a request of `compact_range`, by its number; for the end
    of the round. -/
inductive Place where
  | idle
  | room
  | manual (request : ℕ)
  | work
deriving DecidableEq, Repr

/-- How far `compact_memtable` is: before its lock; writing the table; writing the
    manifest; deleting files. -/
inductive FlushStage where
  | entering
  | building
  | logging
  | cleaning
deriving DecidableEq, Repr

/-- Who called `compact_memtable`: `background_compaction`, or the loop of
    `do_compaction_work` for the request the compaction serves, if any. -/
inductive Caller where
  | round
  | work (manual : Option ℕ)
deriving DecidableEq, Repr

/-- Where the background thread stands while the mutex is free. -/
inductive Worker where
  /-- Not started. -/
  | absent
  /-- Before the first lock of `background_loop`. -/
  | head
  /-- In the wait on `background_work_available_`. -/
  | sleeping (notified : Bool)
  /-- Before the lock of `background_compaction`. -/
  | called
  | flushing (stage : FlushStage) (caller : Caller)
  /-- `compact_memtable` has returned. -/
  | flushed (ok : Bool) (caller : Caller)
  /-- In the manifest write of a trivial move. -/
  | moving
  /-- In the loop of `do_compaction_work`. -/
  | working (manual : Option ℕ)
  /-- Before the lock that records the failure of a flush in that loop. -/
  | flushFailed (manual : Option ℕ)
  /-- `do_compaction_work` has returned. -/
  | worked (ok : Bool) (manual : Option ℕ)
  /-- In the manifest write of a compaction. -/
  | installing (manual : Option ℕ)
  /-- In `remove_obsolete_files` at the end of `background_compaction`. -/
  | cleaning (ok : Bool) (manual : Option ℕ)
  /-- `background_compaction` has returned. -/
  | finished
  | exited
deriving DecidableEq, Repr

namespace Worker

/-- The request whose address `background_compaction` will use again. -/
def manual : Worker → Option ℕ
  | .flushing _ (.work m) => m
  | .flushed _ (.work m) => m
  | .working m => m
  | .flushFailed m => m
  | .worked _ m => m
  | .installing m => m
  | .cleaning _ m => m
  | _ => none

/-- On its way to the end of a round, with nothing to wait for but the mutex. -/
def Pending : Worker → Prop
  | .absent => False
  | .sleeping notified => notified = true
  | .exited => False
  | _ => True

/-- Not in a round. -/
def Resting : Worker → Prop
  | .absent => True
  | .sleeping _ => True
  | .exited => True
  | _ => False

/-- `background_work_available_.notify_one()`. -/
def notify : Worker → Worker
  | .sleeping _ => .sleeping true
  | w => w

/-- The thread is started on first need (lines 1053–1056). -/
def start : Worker → Worker
  | .absent => .head
  | w => w

end Worker

/-- The state with the mutex free. Requests are numbered as they are made. -/
structure State (T : Type*) where
  /-- A background error is recorded. -/
  error : Bool
  shuttingDown : Bool
  /-- `background_compaction_scheduled_`. -/
  scheduled : Bool
  /-- `imm_` is set. -/
  imm : Bool
  /-- The current version needs a compaction. -/
  needs : Bool
  /-- The number of tables of level 0. -/
  level0 : ℕ
  /-- `manual_compaction_`. -/
  slot : Option ℕ
  /-- The requests made so far are those below. -/
  made : ℕ
  done : ℕ → Bool
  place : T → Place
  /-- A waiting thread was notified since it began to wait. -/
  notified : T → Bool
  worker : Worker

/-- What a step of the background thread finds: whether its input and output succeed and
    the directory can be listed; whether there is nothing to compact, or only a file to
    move; whether the loop of `do_compaction_work` comes to the memtable now; and what the
    version it installs is like. -/
structure Outcome where
  ok : Bool
  listed : Bool
  nothing : Bool
  trivialMove : Bool
  flush : Bool
  needs : Bool
  level0 : ℕ
deriving DecidableEq, Repr

/-- What a thread does with the mutex. -/
inductive Action (T : Type*) where
  /-- A writer queues its memtable for flushing. -/
  | rotate
  /-- A writer needs room. -/
  | makeRoom (t : T)
  /-- A reader's seeks are charged to its version, the current one or an older one. -/
  | charge (current : Bool)
  /-- `compact_range` comes to a level. -/
  | compactRange (t : T)
  | waitForWork (t : T)
  /-- A wait returns, with or without a notification. -/
  | wake (t : T)
  | recordError
  | shutDown
  | work (outcome : Outcome)

namespace State

variable (s : State T)

/-- Nothing failed and nobody is leaving. -/
def Healthy : Prop := s.error = false ∧ s.shuttingDown = false

instance : Decidable s.Healthy := inferInstanceAs (Decidable (_ ∧ _))

def notifyAll : State T := { s with notified := fun _ => true }

/-- `record_background_error` (lines 1031–1036). -/
def recordBackgroundError : State T :=
  if s.error then s else { s with error := true }.notifyAll

/-- What `maybe_schedule_compaction` looks for (lines 1043–1044). -/
def workToDo : Bool := s.imm || s.slot.isSome || s.needs

/-- `maybe_schedule_compaction` (lines 1038–1058). -/
def maybeScheduleCompaction : State T :=
  if s.scheduled || s.shuttingDown || s.error then s
  else if s.workToDo then { s with scheduled := true, worker := s.worker.start.notify }
  else s

/-- The database as `DB::open` leaves it, with an error-free recovery behind it. -/
def opened (needs : Bool) (level0 : ℕ) : State T :=
  State.maybeScheduleCompaction
    { error := false, shuttingDown := false, scheduled := false, imm := false, needs := needs,
      level0 := level0, slot := none, made := 0, done := fun _ => false,
      place := fun _ => .idle, notified := fun _ => false, worker := .absent }

/-! ## The waits -/

/-- A thread that comes to this wait waits. -/
def waits : Place → Bool
  | .idle => false
  | .room => !s.error && (s.imm || decide (Process.kL0StopWritesTrigger ≤ s.level0))
  | .manual r => !s.done r && !s.shuttingDown && !s.error && s.slot.isSome
  | .work => s.scheduled

section

variable [DecidableEq T]

def block (t : T) (p : Place) : State T :=
  { s with
    place := Function.update s.place t p
    notified := Function.update s.notified t false }

def leave (t : T) : State T := { s with place := Function.update s.place t .idle }

/-- The loop of `compact_range` when it does not wait (lines 1609–1623): it claims the
    free slot and then waits, or is over. -/
def serve (t : T) (r : ℕ) : State T :=
  if s.done r || s.shuttingDown || s.error then
    { s with slot := if s.slot = some r then none else s.slot }.leave t
  else ({ s with slot := some r }.maybeScheduleCompaction).block t (.manual r)

/-- A request is made, as nobody's yet. -/
def newRequest : State T :=
  { s with made := s.made + 1, done := Function.update s.done s.made false }

/-- The loop around a wait. -/
def again (t : T) (p : Place) : State T :=
  if s.waits p then s.block t p
  else
    match p with
    | .manual r => s.serve t r
    | _ => s.leave t

end

/-! ## The rounds -/

def goto (w : Worker) : State T := { s with worker := w }

/-- `background_loop` from the head of its loop, with the mutex (lines 1062–1078). -/
def loopHead : State T :=
  if !s.scheduled && !s.shuttingDown then s.goto (.sleeping false)
  else if s.shuttingDown then ({ s with scheduled := false }.notifyAll).goto .exited
  else if !s.error then s.goto .called
  -- the round is over before it began; nothing is scheduled while there is an error
  else ({ s with scheduled := false }.notifyAll).goto (.sleeping false)

/-- The end of a round (lines 1080–1086). -/
def endRound : State T :=
  State.loopHead ({ s with scheduled := false }.notifyAll).maybeScheduleCompaction

/-- The last lines of `background_compaction` (lines 1191–1202). -/
def finishManual (ok : Bool) : Option ℕ → State T
  | some r =>
    { s with
      done := if ok then s.done else Function.update s.done r true
      slot := none
      worker := .finished }
  | none => s.goto .finished

/-- `background_compaction` after the work (lines 1186–1202). `remove_obsolete_files`
    releases the mutex when it comes to delete. -/
def finishWork (o : Outcome) (ok : Bool) (m : Option ℕ) : State T :=
  let s := if !ok && !s.shuttingDown then s.recordBackgroundError else s
  if s.error || !o.listed then s.finishManual ok m else s.goto (.cleaning ok m)

/-- A version is installed. -/
def install (o : Outcome) : State T := { s with needs := o.needs, level0 := o.level0 }

/-- `background_compaction` up to the work (lines 1090–1141). -/
def pick (o : Outcome) : State T :=
  if s.imm then s.goto (.flushing .entering .round)
  else
    match s.slot with
    | some r =>
      if o.nothing then { s with done := Function.update s.done r true }.goto .finished
      else { s with done := Function.update s.done r false }.goto (.working (some r))
    | none =>
      if o.nothing then s.goto .finished
      else if o.trivialMove then s.goto .moving
      else s.goto (.working none)

/-- `compact_memtable` (lines 1205–1240). -/
def flushStep (o : Outcome) (c : Caller) : FlushStage → State T
  | .entering => s.goto (.flushing .building c)
  | .building =>
    if o.ok && !s.shuttingDown then s.goto (.flushing .logging c) else s.goto (.flushed false c)
  | .logging =>
    if !o.ok then s.goto (.flushed false c)
    else if s.error || !o.listed then { s.install o with imm := false }.goto (.flushed true c)
    else { s.install o with imm := false }.goto (.flushing .cleaning c)
  | .cleaning => s.goto (.flushed true c)

/-- What follows `compact_memtable` (lines 1097–1099 and 1373–1395). -/
def afterFlush (ok : Bool) : Caller → State T
  | .round => (if ok then s else s.recordBackgroundError).goto .finished
  | .work m => s.notifyAll.goto (if ok then .working m else .flushFailed m)

/-- The background thread goes on. -/
def workStep (o : Outcome) : Option (State T) :=
  match s.worker with
  | .absent => none
  | .head => some s.loopHead
  | .sleeping _ => some s.loopHead
  | .called => some (s.pick o)
  | .flushing stage c => some (s.flushStep o c stage)
  | .flushed ok c => some (s.afterFlush ok c)
  | .moving => some ((if o.ok then s.install o else s).finishWork o o.ok none)
  | .working m =>
    some (if o.flush && s.imm then s.goto (.flushing .entering (.work m))
      else s.goto (.worked o.ok m))
  | .flushFailed m => some (s.recordBackgroundError.goto (.worked false m))
  | .worked ok m =>
    some (if ok then s.goto (.installing m) else s.finishWork o false m)
  | .installing m => some ((if o.ok then s.install o else s).finishWork o o.ok m)
  | .cleaning ok m => some (s.finishManual ok m)
  | .finished => some s.endRound
  | .exited => none

end State

/-- One step. -/
def State.step [DecidableEq T] (s : State T) : Action T → Option (State T)
  | .rotate => if s.imm then none else some { s with imm := true }.maybeScheduleCompaction
  | .makeRoom t => if s.place t = .idle then some (s.again t .room) else none
  | .charge current => some { s with needs := s.needs || current }.maybeScheduleCompaction
  | .compactRange t =>
    if s.place t = .idle then some (s.newRequest.again t (.manual s.made)) else none
  | .waitForWork t => if s.place t = .idle then some (s.again t .work) else none
  | .wake t => if s.place t = .idle then none else some (s.again t (s.place t))
  | .recordError => some s.recordBackgroundError
  | .shutDown => some { s with shuttingDown := true, worker := s.worker.notify }
  | .work o => s.workStep o

open State

/-! ## What a step leaves as it is -/

/-- The waits, the requests and the slot are as they were, and an error or a shutdown
    stays. -/
structure Same (s s' : State T) : Prop where
  place : s'.place = s.place
  made : s'.made = s.made
  slot : s'.slot = s.slot
  done : s'.done = s.done
  healthy : s'.Healthy → s.Healthy

namespace Same

variable {s s' s'' : State T}

theorem refl (s : State T) : Same s s := ⟨rfl, rfl, rfl, rfl, id⟩

theorem trans (h : Same s s') (h' : Same s' s'') : Same s s'' :=
  ⟨h'.place.trans h.place, h'.made.trans h.made, h'.slot.trans h.slot, h'.done.trans h.done,
    h.healthy ∘ h'.healthy⟩

theorem notifyAll (s : State T) : Same s s.notifyAll := ⟨rfl, rfl, rfl, rfl, id⟩

theorem goto (s : State T) (w : Worker) : Same s (s.goto w) := ⟨rfl, rfl, rfl, rfl, id⟩

theorem install (s : State T) (o : Outcome) : Same s (s.install o) := ⟨rfl, rfl, rfl, rfl, id⟩

theorem recordBackgroundError (s : State T) : Same s s.recordBackgroundError := by
  unfold State.recordBackgroundError
  split_ifs
  · exact refl s
  · exact ⟨rfl, rfl, rfl, rfl, fun h => nomatch h.1⟩

theorem maybeSchedule (s : State T) : Same s s.maybeScheduleCompaction := by
  unfold State.maybeScheduleCompaction
  split_ifs
  · exact refl s
  · exact ⟨rfl, rfl, rfl, rfl, id⟩
  · exact refl s

theorem queue (s : State T) (imm needs : Bool) :
    Same s { s with imm := imm, needs := needs }.maybeScheduleCompaction :=
  have h : Same s { s with imm := imm, needs := needs } := ⟨rfl, rfl, rfl, rfl, id⟩
  h.trans (maybeSchedule _)

theorem loopHead (s : State T) : Same s s.loopHead := by
  unfold State.loopHead
  split_ifs <;> exact ⟨rfl, rfl, rfl, rfl, id⟩

theorem endRound (s : State T) : Same s s.endRound :=
  have h : Same s (State.notifyAll { s with scheduled := false }) := ⟨rfl, rfl, rfl, rfl, id⟩
  (h.trans (maybeSchedule _)).trans (loopHead _)

end Same

theorem notify_manual (w : Worker) : w.notify.manual = w.manual := by cases w <;> rfl

theorem start_manual (w : Worker) : w.start.manual = w.manual := by cases w <;> rfl

theorem maybeSchedule_manual (s : State T) :
    s.maybeScheduleCompaction.worker.manual = s.worker.manual := by
  unfold State.maybeScheduleCompaction
  split_ifs
  · rfl
  · exact (notify_manual _).trans (start_manual _)
  · rfl

theorem recordBackgroundError_manual (s : State T) :
    s.recordBackgroundError.worker.manual = s.worker.manual := by
  unfold State.recordBackgroundError
  split_ifs <;> rfl

theorem loopHead_manual (s : State T) : s.loopHead.worker.manual = none := by
  unfold State.loopHead
  split_ifs <;> rfl

/-- What a step is: work appears and is scheduled; a thread comes to a wait, with a new
    request or without, or comes back from it; an error is recorded; the shutdown begins;
    or the background thread goes on. -/
inductive Effect [DecidableEq T] (s : State T) : State T → Prop
  | queue (imm needs : Bool) (himm : s.imm = true → imm = true) :
    Effect s { s with imm := imm, needs := needs }.maybeScheduleCompaction
  | wait (t : T) (p : Place) (hp : ∀ r, p ≠ .manual r) (hidle : s.place t = .idle) :
    Effect s (s.again t p)
  | request (t : T) (hidle : s.place t = .idle) :
    Effect s (s.newRequest.again t (.manual s.made))
  | wake (t : T) : Effect s (s.again t (s.place t))
  | recordError : Effect s s.recordBackgroundError
  | shutDown : Effect s { s with shuttingDown := true, worker := s.worker.notify }
  | work (o : Outcome) (s' : State T) (hwork : s.workStep o = some s') : Effect s s'

theorem Effect.of_step [DecidableEq T] {s s' : State T} {a : Action T}
    (hstep : s.step a = some s') : Effect s s' := by
  cases a with
  | rotate =>
    simp only [State.step, Option.ite_none_left_eq_some, Option.some.injEq] at hstep
    obtain ⟨-, rfl⟩ := hstep
    exact .queue true s.needs fun _ => rfl
  | makeRoom t =>
    simp only [State.step, Option.ite_none_right_eq_some, Option.some.injEq] at hstep
    obtain ⟨hidle, rfl⟩ := hstep
    exact .wait t .room nofun hidle
  | charge current =>
    cases hstep
    exact .queue s.imm _ id
  | compactRange t =>
    simp only [State.step, Option.ite_none_right_eq_some, Option.some.injEq] at hstep
    obtain ⟨hidle, rfl⟩ := hstep
    exact .request t hidle
  | waitForWork t =>
    simp only [State.step, Option.ite_none_right_eq_some, Option.some.injEq] at hstep
    obtain ⟨hidle, rfl⟩ := hstep
    exact .wait t .work nofun hidle
  | wake t =>
    simp only [State.step, Option.ite_none_left_eq_some, Option.some.injEq] at hstep
    obtain ⟨-, rfl⟩ := hstep
    exact .wake t
  | recordError =>
    cases hstep
    exact .recordError
  | shutDown =>
    cases hstep
    exact .shutDown
  | work o => exact .work o s' hstep

/-- What a step of the background thread does to requests and slot: it lets both alone, and
    holds on to its request or takes the one in the slot; or it clears the slot, at the end
    of what it did for a request. -/
structure WorkEffect (s s' : State T) : Prop where
  place : s'.place = s.place
  made : s'.made = s.made
  healthy : s'.Healthy → s.Healthy
  slot : (s'.slot = s.slot ∧ ∀ r, s'.worker.manual = some r →
      s.worker.manual = some r ∧ s'.done r = s.done r ∨ s.slot = some r ∧ s'.done r = false) ∨
    ∃ r, s.worker.manual = some r ∧ s'.slot = none ∧ s'.worker.manual = none

namespace WorkEffect

variable {s s' : State T}

/-- The step lets the requests alone. -/
theorem of_same (h : Same s s')
    (hmanual : ∀ r, s'.worker.manual = some r → s.worker.manual = some r) : WorkEffect s s' :=
  ⟨h.place, h.made, h.healthy,
    .inl ⟨h.slot, fun r hr => .inl ⟨hmanual r hr, congrFun h.done r⟩⟩⟩

theorem of_none (h : Same s s') (hmanual : s'.worker.manual = none) : WorkEffect s s' :=
  of_same h fun _ hr => nomatch hmanual.symm.trans hr

theorem goto (h : Same s s') {w : Worker} (hw : w.manual = s.worker.manual) :
    WorkEffect s (s'.goto w) :=
  of_same (h.trans (.goto s' w)) fun _ hr => hw.symm.trans hr

theorem pick (s : State T) (o : Outcome) : WorkEffect s (s.pick o) := by
  unfold State.pick
  by_cases himm : s.imm = true
  · rw [if_pos himm]
    exact of_none (.goto _ _) rfl
  rw [if_neg himm]
  cases hslot : s.slot with
  | some r =>
    dsimp only
    split_ifs
    · exact ⟨rfl, rfl, id, .inl ⟨hslot.symm, fun _ hr => nomatch hr⟩⟩
    · refine ⟨rfl, rfl, id, .inl ⟨hslot.symm, fun q hq => .inr ?_⟩⟩
      cases hq
      exact ⟨hslot, Function.update_self ..⟩
  | none =>
    dsimp only
    split_ifs <;> exact of_none (.goto _ _) rfl

theorem finishManual (h : Same s s') (ok : Bool) {m : Option ℕ} (hm : s.worker.manual = m) :
    WorkEffect s (s'.finishManual ok m) := by
  cases m with
  | none => exact of_none (h.trans (.goto _ _)) rfl
  | some r => exact ⟨h.place, h.made, h.healthy, .inr ⟨r, hm, rfl, rfl⟩⟩

theorem finishWork (h : Same s s') (o : Outcome) (ok : Bool) {m : Option ℕ}
    (hm : s.worker.manual = m) : WorkEffect s (s'.finishWork o ok m) := by
  have hrec : Same s (if !ok && !s'.shuttingDown then s'.recordBackgroundError else s') := by
    split_ifs
    · exact h.trans (.recordBackgroundError s')
    · exact h
  unfold State.finishWork
  dsimp only
  generalize (if !ok && !s'.shuttingDown then s'.recordBackgroundError else s') = u at hrec ⊢
  split_ifs
  · exact finishManual hrec ok hm
  · exact goto hrec hm.symm

theorem flushStep {c : Caller} {stage : FlushStage} (hw : s.worker = .flushing stage c)
    (o : Outcome) : WorkEffect s (s.flushStep o c stage) := by
  have hmanual : ∀ ok, (Worker.flushed ok c).manual = s.worker.manual := by
    intro ok
    rw [hw]
    cases c <;> rfl
  have hflush : ∀ stage', (Worker.flushing stage' c).manual = s.worker.manual := by
    intro stage'
    rw [hw]
    cases c <;> rfl
  have himm : Same s { s.install o with imm := false } := ⟨rfl, rfl, rfl, rfl, id⟩
  cases stage with
  | entering => exact goto (.refl s) (hflush _)
  | building =>
    simp only [State.flushStep]
    split_ifs
    · exact goto (.refl s) (hflush _)
    · exact goto (.refl s) (hmanual _)
  | logging =>
    simp only [State.flushStep]
    split_ifs
    · exact goto (.refl s) (hmanual _)
    · exact goto himm (hmanual _)
    · exact goto himm (hflush _)
  | cleaning => exact goto (.refl s) (hmanual _)

theorem afterFlush {c : Caller} {ok : Bool} (hw : s.worker = .flushed ok c) :
    WorkEffect s (s.afterFlush ok c) := by
  cases c with
  | round =>
    refine of_none (.trans ?_ (.goto _ _)) rfl
    split_ifs
    · exact .refl s
    · exact .recordBackgroundError s
  | work m =>
    refine goto (.notifyAll s) ?_
    rw [hw]
    cases ok <;> rfl

theorem workStep {o : Outcome} (hstep : s.workStep o = some s') : WorkEffect s s' := by
  unfold State.workStep at hstep
  split at hstep
  case h_1 => cases hstep
  case h_2 => cases hstep; exact of_none (.loopHead s) (loopHead_manual s)
  case h_3 => cases hstep; exact of_none (.loopHead s) (loopHead_manual s)
  case h_4 => cases hstep; exact pick s o
  case h_5 stage c hw => cases hstep; exact flushStep hw o
  case h_6 ok c hw => cases hstep; exact afterFlush hw
  case h_7 hw =>
    cases hstep
    refine finishWork ?_ o o.ok (by rw [hw]; rfl)
    split_ifs
    · exact .install s o
    · exact .refl s
  case h_8 m hw =>
    cases hstep
    split_ifs
    · exact goto (.refl s) (by rw [hw]; rfl)
    · exact goto (.refl s) (by rw [hw]; rfl)
  case h_9 m hw => cases hstep; exact goto (.recordBackgroundError s) (by rw [hw]; rfl)
  case h_10 ok m hw =>
    cases hstep
    split_ifs
    · exact goto (.refl s) (by rw [hw]; rfl)
    · exact finishWork (.refl s) o false (by rw [hw]; rfl)
  case h_11 m hw =>
    cases hstep
    refine finishWork ?_ o o.ok (by rw [hw]; rfl)
    split_ifs
    · exact .install s o
    · exact .refl s
  case h_12 ok m hw => cases hstep; exact finishManual (.refl s) ok (by rw [hw]; rfl)
  case h_13 => cases hstep; exact of_none (.endRound s) (loopHead_manual _)
  case h_14 => cases hstep

end WorkEffect

section

variable [DecidableEq T] (s : State T) (t : T) (p : Place)

@[simp] theorem block_place_self : (s.block t p).place t = p := Function.update_self ..

@[simp] theorem leave_place_self : (s.leave t).place t = .idle := Function.update_self ..

variable {t} {u : T} (hne : u ≠ t)

include hne

theorem block_place_of_ne : (s.block t p).place u = s.place u := Function.update_of_ne hne ..

theorem block_notified_of_ne : (s.block t p).notified u = s.notified u :=
  Function.update_of_ne hne ..

theorem leave_place_of_ne : (s.leave t).place u = s.place u := Function.update_of_ne hne ..

end

theorem Same.block [DecidableEq T] {s s' : State T} (h : Same s s') (t : T) (p : Place) :
    Same (s.block t p) (s'.block t p) :=
  ⟨by simp only [State.block, h.place], h.made, h.slot, h.done, h.healthy⟩

end Background

end Ambar
