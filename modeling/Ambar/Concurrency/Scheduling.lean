import Ambar.Concurrency.ManualRequests

/-!
# Scheduling the background thread

Work appears when a writer rotates, a reader's seeks are charged, `compact_range` claims
the slot, or a round ends; each of these calls `maybe_schedule_compaction`
(`src/db_impl.cpp`, lines 1038–1058). The slot may be left set by a round that found
nothing, and is then cleared by its owner without a word; an error is announced once.

* `Sched.step`: what one step leaves true of the scheduling.
* `work_scheduled`: with no error and no shutdown, work to do is scheduled, and nobody
  sleeps whom neither the past nor a round to come wakes.
-/

namespace Ambar

namespace Background

open State

variable {T : Type*}

/-- Whoever waits was notified, or has something to wait for. -/
def Awake (s : State T) : Prop :=
  ∀ t, s.place t ≠ .idle → s.notified t = true ∨ s.waits (s.place t) = true

/-- A round is on its way; or the thread rests and, with no error and no shutdown, there is
    no work and nobody waits in vain. -/
structure Sched (s : State T) : Prop where
  round : s.scheduled = true ∧ s.worker.Pending ∨
    s.scheduled = false ∧ s.worker.Resting ∧ (s.Healthy → s.workToDo = false ∧ Awake s)
  exited : s.worker = .exited → s.shuttingDown = true

namespace Sched

variable {s s' : State T}

theorem maybeSchedule_eq_self (hsched : s.maybeScheduleCompaction.scheduled = false)
    (hwell : s.maybeScheduleCompaction.Healthy) :
    s.maybeScheduleCompaction = s ∧ s.workToDo = false := by
  unfold State.maybeScheduleCompaction at hsched hwell ⊢
  split_ifs at hsched hwell ⊢ with hskip hwork
  · rw [hsched, hwell.1, hwell.2] at hskip
    cases hskip
  · exact ⟨rfl, Bool.eq_false_iff.mpr hwork⟩

theorem recordBackgroundError_scheduled (s : State T) :
    s.recordBackgroundError.scheduled = s.scheduled := by
  unfold State.recordBackgroundError
  split_ifs <;> rfl

theorem of_pending (hscheduled : s.scheduled = true) (hpending : s.worker.Pending) : Sched s :=
  ⟨.inl ⟨hscheduled, hpending⟩, fun hexited => by rw [hexited] at hpending; cases hpending⟩

theorem maybeSchedule (hround : s.scheduled = true ∧ s.worker.Pending ∨
      s.scheduled = false ∧ s.worker.Resting ∧ (s.Healthy → Awake s))
    (hexited : s.worker = .exited → s.shuttingDown = true) : Sched s.maybeScheduleCompaction := by
  unfold State.maybeScheduleCompaction
  split_ifs with hskip hwork
  · refine ⟨hround.imp_right fun ⟨hsched, hrest, _⟩ => ⟨hsched, hrest, fun hwell => ?_⟩, hexited⟩
    rw [hsched, hwell.1, hwell.2] at hskip
    cases hskip
  · simp only [Bool.or_eq_true, not_or, Bool.not_eq_true] at hskip
    obtain ⟨⟨hsched, hshut⟩, -⟩ := hskip
    refine of_pending rfl ?_
    rcases hround with ⟨hsched', -⟩ | ⟨-, hrest, -⟩
    · cases hsched.symm.trans hsched'
    cases hw : s.worker with
    | absent => trivial
    | sleeping => rfl
    | exited => cases hshut.symm.trans (hexited hw)
    | _ => rw [hw] at hrest; cases hrest
  · refine ⟨hround.imp_right fun ⟨hsched, hrest, hawake⟩ => ⟨hsched, hrest, fun hwell => ?_⟩,
      hexited⟩
    exact ⟨Bool.eq_false_iff.mpr hwork, hawake hwell⟩

/-- The thread at the head of its loop. -/
theorem loopHead (h : s.scheduled = false → s.Healthy → s.workToDo = false ∧ Awake s) :
    Sched s.loopHead := by
  unfold State.loopHead
  split_ifs with hsleep hshut herror
  · simp only [Bool.and_eq_true, Bool.not_eq_true'] at hsleep
    exact ⟨.inr ⟨hsleep.1, trivial, fun hwell => h hsleep.1 hwell⟩, nofun⟩
  · exact ⟨.inr ⟨rfl, trivial, fun hwell => nomatch hshut.symm.trans hwell.2⟩, fun _ => hshut⟩
  · refine of_pending ?_ trivial
    show s.scheduled = true
    simpa [hshut] using hsleep
  · refine ⟨.inr ⟨rfl, trivial, fun hwell => ?_⟩, nofun⟩
    rw [show s.error = false from hwell.1] at herror
    exact absurd rfl herror

theorem endRound (s : State T) : Sched s.endRound := by
  refine loopHead fun hsched hwell => ?_
  obtain ⟨heq, hwork⟩ := maybeSchedule_eq_self hsched hwell
  rw [heq]
  exact ⟨hwork, fun _ _ => .inl rfl⟩

/-- In a round the thread goes from place to place. -/
theorem goto (h : s.scheduled = true) {w : Worker} (hw : w.Pending) : Sched (s.goto w) :=
  of_pending h hw

theorem finishManual (h : s.scheduled = true) (ok : Bool) (m : Option ℕ) :
    Sched (s.finishManual ok m) := by
  cases m <;> exact of_pending h trivial

theorem finishWork (h : s.scheduled = true) (o : Outcome) (ok : Bool) (m : Option ℕ) :
    Sched (s.finishWork o ok m) := by
  have hrec : (if !ok && !s.shuttingDown then s.recordBackgroundError else s).scheduled = true := by
    split_ifs
    · rwa [recordBackgroundError_scheduled]
    · exact h
  unfold State.finishWork
  dsimp only
  generalize (if !ok && !s.shuttingDown then s.recordBackgroundError else s) = u at hrec ⊢
  split_ifs
  · exact finishManual hrec ok m
  · exact goto hrec trivial

theorem pick (h : s.scheduled = true) (o : Outcome) : Sched (s.pick o) := by
  unfold State.pick
  by_cases himm : s.imm = true
  · rw [if_pos himm]
    exact goto h trivial
  rw [if_neg himm]
  cases s.slot <;> dsimp only <;> split_ifs <;> exact of_pending h trivial

theorem flushStep (h : s.scheduled = true) (o : Outcome) (c : Caller) (stage : FlushStage) :
    Sched (s.flushStep o c stage) := by
  cases stage with
  | entering => exact goto h trivial
  | building => simp only [State.flushStep]; split_ifs <;> exact goto h trivial
  | logging => simp only [State.flushStep]; split_ifs <;> exact of_pending h trivial
  | cleaning => exact goto h trivial

theorem afterFlush (h : s.scheduled = true) (ok : Bool) (c : Caller) :
    Sched (s.afterFlush ok c) := by
  cases c with
  | round =>
    refine goto ?_ trivial
    split_ifs
    · exact h
    · rwa [recordBackgroundError_scheduled]
  | work m => cases ok <;> exact of_pending h trivial

theorem workStep (h : Sched s) {o : Outcome} (hstep : s.workStep o = some s') : Sched s' := by
  have hinstall : (if o.ok then s.install o else s).scheduled = s.scheduled := by
    split_ifs <;> rfl
  have hrest : s.scheduled = false → s.Healthy → s.workToDo = false ∧ Awake s := by
    intro hsched
    rcases h.round with ⟨hsched', -⟩ | ⟨-, -, hrest⟩
    · cases hsched.symm.trans hsched'
    · exact hrest
  -- outside the waits of its loop the thread is in a round
  have hsched : ¬ s.worker.Resting → s.scheduled = true := by
    intro hbusy
    rcases h.round with ⟨hsched, -⟩ | ⟨-, hrest, -⟩
    · exact hsched
    · exact absurd hrest hbusy
  unfold State.workStep at hstep
  split at hstep
  case h_1 => cases hstep
  case h_2 => cases hstep; exact loopHead hrest
  case h_3 => cases hstep; exact loopHead hrest
  case h_14 => cases hstep
  all_goals
    rename_i hw
    replace hsched := hsched (by rw [hw]; exact id)
    cases hstep
  case h_4 => exact pick hsched o
  case h_5 => exact flushStep hsched o _ _
  case h_6 => exact afterFlush hsched _ _
  case h_7 => exact finishWork (hinstall.trans hsched) o _ _
  case h_8 => split_ifs <;> exact goto hsched trivial
  case h_9 => exact goto ((recordBackgroundError_scheduled s).trans hsched) trivial
  case h_10 =>
    split_ifs
    · exact goto hsched trivial
    · exact finishWork hsched o _ _
  case h_11 => exact finishWork (hinstall.trans hsched) o _ _
  case h_12 => exact finishManual hsched _ _
  case h_13 => exact endRound s

/-- A change that leaves the waits alone, and work to do only where there was some. -/
theorem of_awake (h : Sched s) (hsched : s'.scheduled = s.scheduled) (hworker : s'.worker = s.worker)
    (hshut : s'.shuttingDown = s.shuttingDown) (hwell : s'.Healthy → s.Healthy)
    (hrest : s.scheduled = false → s.Healthy → s.workToDo = false → Awake s →
      s'.workToDo = false ∧ Awake s') : Sched s' := by
  refine ⟨?_, by rw [hworker, hshut]; exact h.exited⟩
  rw [hsched, hworker]
  exact h.round.imp_right fun ⟨hs, hr, hidle⟩ =>
    ⟨hs, hr, fun hw => hrest hs (hwell hw) (hidle (hwell hw)).1 (hidle (hwell hw)).2⟩

theorem recordBackgroundError (h : Sched s) : Sched s.recordBackgroundError := by
  unfold State.recordBackgroundError
  split_ifs
  · exact h
  · exact h.of_awake rfl rfl rfl (fun hwell => nomatch hwell.1) fun _ _ hwork _ =>
      ⟨hwork, fun _ _ => .inl rfl⟩

theorem shutDown (h : Sched s) :
    Sched { s with shuttingDown := true, worker := s.worker.notify } := by
  refine ⟨?_, fun _ => rfl⟩
  rcases h.round with ⟨hsched, hpending⟩ | ⟨hsched, hrest, -⟩
  · refine .inl ⟨hsched, ?_⟩
    show s.worker.notify.Pending
    cases hw : s.worker <;> rw [hw] at hpending <;> first | exact hpending | rfl
  · refine .inr ⟨hsched, ?_, fun hwell => nomatch hwell.2⟩
    show s.worker.notify.Resting
    cases hw : s.worker <;> rw [hw] at hrest <;> exact hrest

theorem queue (h : Sched s) {imm needs : Bool} (himm : s.imm = true → imm = true) :
    Sched { s with imm := imm, needs := needs }.maybeScheduleCompaction := by
  refine maybeSchedule (h.round.imp_right fun ⟨hsched, hrest, hidle⟩ => ⟨hsched, hrest, ?_⟩)
    h.exited
  intro hwell u hu
  refine ((hidle hwell).2 u hu).imp_right fun hwaits => ?_
  show State.waits { s with imm := imm, needs := needs } (s.place u) = true
  cases hplace : s.place u with
  | room =>
    rw [hplace] at hwaits
    simp only [State.waits, Bool.and_eq_true, Bool.or_eq_true] at hwaits ⊢
    exact hwaits.imp_right (Or.imp_left himm)
  | _ => rw [hplace] at hwaits; exact hwaits

/-- An owner clears the slot and tells nobody: a round is on its way then. -/
theorem clear (h : Sched s) (hslot : s.slot ≠ none) : Sched { s with slot := none } := by
  refine h.of_awake rfl rfl rfl id fun hsched hwell hwork hawake => ?_
  simp only [State.workToDo, Bool.or_eq_false_iff, Option.isSome_eq_false_iff,
    Option.isNone_iff_eq_none] at hwork
  exact absurd hwork.1.2 hslot

theorem newRequest (h : Sched s) (hreq : Requests s) : Sched s.newRequest := by
  refine h.of_awake rfl rfl rfl id fun hsched hwell hwork hawake => ⟨hwork, fun u hu => ?_⟩
  refine (hawake u hu).imp_right fun hwaits => ?_
  show s.newRequest.waits (s.place u) = true
  cases hplace : s.place u with
  | manual r =>
    rw [hplace] at hwaits
    simpa [State.waits, State.newRequest, Function.update_of_ne (hreq.made u r hplace).ne]
      using hwaits
  | _ => rw [hplace] at hwaits; exact hwaits

/-- Claiming the free slot schedules a round. -/
theorem claim (h : Sched s) {r : ℕ} (hwell : s.Healthy) (hnone : s.slot = none) :
    Sched { s with slot := some r }.maybeScheduleCompaction ∧
      { s with slot := some r }.maybeScheduleCompaction.scheduled = true := by
  constructor
  · refine maybeSchedule (h.round.imp_right fun ⟨hsched, hrest, hawake⟩ => ⟨hsched, hrest, ?_⟩)
      h.exited
    intro _ u hu
    rcases (hawake hwell).2 u hu with hnotified | hwaits
    · exact .inl hnotified
    · refine .inr ?_
      show State.waits { s with slot := some r } (s.place u) = true
      cases hplace : s.place u with
      | manual q =>
        rw [hplace] at hwaits
        simp [State.waits, hnone] at hwaits
      | _ => rw [hplace] at hwaits; exact hwaits
  · unfold State.maybeScheduleCompaction
    split_ifs with hskip hwork
    · simpa [hwell.1, hwell.2] using hskip
    · rfl
    · exact absurd (by simp [State.workToDo]) hwork

variable [DecidableEq T]

theorem block (h : Sched s) (t : T) {p : Place} (hp : s.waits p = true ∨ s.scheduled = true) :
    Sched (s.block t p) := by
  refine h.of_awake rfl rfl rfl id fun hsched hwell hwork hawake => ⟨hwork, fun u hu => ?_⟩
  by_cases hut : u = t
  · subst hut
    rw [block_place_self]
    rcases hp with hp | hp
    · exact .inr hp
    · cases hsched.symm.trans hp
  · rw [block_place_of_ne s p hut] at hu ⊢
    rw [block_notified_of_ne s p hut]
    exact hawake u hu

theorem leave (h : Sched s) (t : T) : Sched (s.leave t) := by
  refine h.of_awake rfl rfl rfl id fun hsched hwell hwork hawake => ⟨hwork, fun u hu => ?_⟩
  by_cases hut : u = t
  · subst hut
    exact absurd (leave_place_self s u) hu
  · rw [leave_place_of_ne s hut] at hu ⊢
    exact hawake u hu

theorem serve (h : Sched s) (t : T) {r : ℕ} (hfree : s.done r = false → s.Healthy → s.slot = none) :
    Sched (s.serve t r) := by
  unfold State.serve
  split_ifs with hleave hslot
  · exact (h.clear (by rw [hslot]; nofun)).leave t
  · exact h.leave t
  · simp only [Bool.or_eq_true, not_or, Bool.not_eq_true] at hleave
    obtain ⟨⟨hdone, hshut⟩, herror⟩ := hleave
    have hclaim := h.claim (r := r) ⟨herror, hshut⟩ (hfree hdone ⟨herror, hshut⟩)
    exact hclaim.1.block t (.inr hclaim.2)

theorem again (h : Sched s) (t : T) (p : Place) : Sched (s.again t p) := by
  unfold State.again
  split_ifs with hwaits
  · exact h.block t (.inl hwaits)
  cases p with
  | manual r =>
    refine h.serve t fun hdone hwell => ?_
    simpa [State.waits, hdone, hwell.1, hwell.2] using hwaits
  | idle => exact h.leave t
  | room => exact h.leave t
  | work => exact h.leave t

/-- A step leaves nobody asleep whom no round wakes. -/
theorem step (h : Sched s) (hreq : Requests s) {a : Action T} (hstep : s.step a = some s') :
    Sched s' := by
  cases Effect.of_step hstep with
  | queue imm needs himm => exact h.queue himm
  | wait t p => exact h.again t p
  | request t => exact (h.newRequest hreq).again t _
  | wake t => exact h.again t _
  | recordError => exact h.recordBackgroundError
  | shutDown => exact h.shutDown
  | work o _ hwork => exact h.workStep hwork

end Sched

theorem opened_sched (needs : Bool) (level0 : ℕ) : Sched (opened needs level0 : State T) :=
  Sched.maybeSchedule (.inr ⟨rfl, trivial, fun _ _ hplace => absurd rfl hplace⟩) nofun

section

variable [DecidableEq T]

theorem Sched.run {needs : Bool} {level0 : ℕ} {as : List (Action T)} {s : State T}
    (hrun : Lib.run State.step (opened needs level0) as = some s) : Sched s := by
  have hstep : ∀ (s : State T) a s', Requests s ∧ Sched s → s.step a = some s' →
      Requests s' ∧ Sched s' :=
    fun _ _ _ h hstep => ⟨h.1.step hstep, h.2.step h.1 hstep⟩
  exact (Lib.run_invariant State.step hstep
    ⟨opened_requests needs level0, opened_sched needs level0⟩ hrun).2

end

end Background

end Ambar
