import Ambar.Concurrency.Background

/-!
# Manual compaction requests

The request of a `compact_range` is on its caller's stack. The caller leaves it there until
it is done, or until an error or a shutdown ends the wait (`src/db_impl.cpp`, lines
1593–1632); the background thread keeps the address while the mutex is released, and uses
it once more at the end of `background_compaction` (lines 1191–1202).

* `Requests.step`: what one step leaves true of the requests and the slot.
* `manual_requests_live`: when the request the thread holds is still there.
* `manual_request_gone`: a run in which it is not.
-/

namespace Ambar

namespace Background

open State

variable {T : Type*}

/-- The slot's request is still waited for. One that the thread holds is not done, and is in
    the slot unless an error or a shutdown let its owner go, after which nobody claims the
    slot. -/
structure Requests (s : State T) : Prop where
  made : ∀ t r, s.place t = .manual r → r < s.made
  owner : ∀ r, s.slot = some r → ∃ t, s.place t = .manual r
  held : ∀ r, s.worker.manual = some r →
    s.done r = false ∧ (s.slot = some r ∨ s.slot = none ∧ ¬ s.Healthy)

namespace Requests

variable {s s' : State T}

theorem of_same (h : Requests s) (hs : Same s s')
    (hmanual : s'.worker.manual = s.worker.manual) : Requests s' where
  made := by rw [hs.place, hs.made]; exact h.made
  owner := by rw [hs.place, hs.slot]; exact h.owner
  held := by
    rw [hs.done, hs.slot, hmanual]
    exact fun r hr => (h.held r hr).imp_right (Or.imp_right (And.imp_right (mt hs.healthy)))

theorem newRequest (h : Requests s) : Requests s.newRequest where
  made := fun t r hr => (h.made t r hr).trans (Nat.lt_succ_self _)
  owner := h.owner
  held := by
    intro r hr
    refine ⟨?_, (h.held r hr).2⟩
    by_cases heq : r = s.made
    · exact heq ▸ Function.update_self ..
    · exact (Function.update_of_ne heq ..).trans (h.held r hr).1

theorem workStep (h : Requests s) (heffect : WorkEffect s s') : Requests s' where
  made := by rw [heffect.place, heffect.made]; exact h.made
  owner := by
    intro r hr
    rw [heffect.place]
    rcases heffect.slot with ⟨hslot, -⟩ | ⟨-, -, hslot, -⟩
    · exact h.owner r (hslot.symm.trans hr)
    · cases hslot.symm.trans hr
  held := by
    intro r hr
    rcases heffect.slot with ⟨hslot, hheld⟩ | ⟨-, -, -, hnone⟩
    · rw [hslot]
      rcases hheld r hr with ⟨hold, hdone⟩ | ⟨htaken, hdone⟩
      · rw [hdone]
        exact (h.held r hold).imp_right (Or.imp_right (And.imp_right (mt heffect.healthy)))
      · exact ⟨hdone, .inl htaken⟩
    · cases hnone.symm.trans hr

variable [DecidableEq T]

/-- A thread that has no other request begins to wait. -/
theorem block (h : Requests s) {t : T} {p : Place} (hp : ∀ r, p = .manual r → r < s.made)
    (howner : ∀ r, s.slot = some r → p = .manual r ∨ s.place t ≠ .manual r) :
    Requests (s.block t p) where
  made := by
    intro u r hu
    by_cases hut : u = t
    · subst hut
      rw [block_place_self] at hu
      exact hp r hu
    · rw [block_place_of_ne s p hut] at hu
      exact h.made u r hu
  owner := by
    intro r hr
    obtain ⟨u, hu⟩ := h.owner r hr
    by_cases hut : u = t
    · subst hut
      rcases howner r hr with rfl | hne
      · exact ⟨u, block_place_self s u _⟩
      · exact absurd hu hne
    · exact ⟨u, (block_place_of_ne s p hut).trans hu⟩
  held := h.held

theorem leave (h : Requests s) {t : T} (howner : ∀ r, s.slot = some r → s.place t ≠ .manual r) :
    Requests (s.leave t) :=
  -- as far as requests go, leaving is waiting for nothing
  have hblock := h.block (t := t) (p := .idle) (fun _ hr => nomatch hr)
    fun r hr => .inr (howner r hr)
  ⟨hblock.made, hblock.owner, hblock.held⟩

/-- `serve` is for the thread whose request it is, which has no other. -/
theorem serve (h : Requests s) {t : T} {r : ℕ} (hr : r < s.made)
    (hplace : s.place t = .idle ∨ s.place t = .manual r)
    (hfree : s.done r = false → s.Healthy → s.slot = none) : Requests (s.serve t r) := by
  have hother : ∀ q, q ≠ r → s.place t ≠ .manual q := by
    intro q hq hplace'
    rcases hplace with hp | hp <;> rw [hp] at hplace' <;> cases hplace'
    exact hq rfl
  unfold State.serve
  split_ifs with hleave hslot
  · have hclear : Requests { s with slot := none } := by
      refine ⟨h.made, nofun, fun q hq => ⟨(h.held q hq).1, .inr ⟨rfl, ?_⟩⟩⟩
      -- the request left is not the one held, or there is an error or a shutdown
      rcases (h.held q hq).2 with hq' | ⟨-, hunwell⟩
      · cases Option.some.inj (hslot.symm.trans hq')
        intro hwell
        rw [(h.held r hq).1, hwell.1, hwell.2] at hleave
        cases hleave
      · exact hunwell
    exact hclear.leave nofun
  · exact leave ⟨h.made, h.owner, h.held⟩ fun q hq => hother q fun heq => hslot (heq ▸ hq)
  · simp only [Bool.or_eq_true, not_or, Bool.not_eq_true] at hleave
    obtain ⟨⟨hdone, hshut⟩, herror⟩ := hleave
    have hnone := hfree hdone ⟨herror, hshut⟩
    -- with no error and a free slot the thread holds nothing
    have hheld : s.worker.manual = none := by
      cases hm : s.worker.manual with
      | none => rfl
      | some q =>
        rcases (h.held q hm).2 with hq | ⟨-, hunwell⟩
        · cases hnone.symm.trans hq
        · exact absurd ⟨herror, hshut⟩ hunwell
    have hblock := h.block (t := t) (p := .manual r) (fun _ hq => by cases hq; exact hr)
      fun _ hq => nomatch hnone.symm.trans hq
    have hclaim : Requests ({ s with slot := some r }.block t (.manual r)) := by
      refine ⟨hblock.made, fun q hq => ?_, fun q hq => nomatch hheld.symm.trans hq⟩
      cases hq
      exact ⟨t, block_place_self s t _⟩
    exact hclaim.of_same ((Same.maybeSchedule _).block t _) (maybeSchedule_manual _)

theorem again (h : Requests s) {t : T} {p : Place} (hp : ∀ r, p = .manual r → r < s.made)
    (hplace : s.place t = .idle ∨ s.place t = p) : Requests (s.again t p) := by
  have howner : ∀ r, s.slot = some r → p = .manual r ∨ s.place t ≠ .manual r := by
    intro r _
    rcases hplace with hp | hp <;> rw [hp]
    · exact .inr nofun
    · exact em _
  unfold State.again
  split_ifs with hwaits
  · exact h.block hp howner
  cases p with
  | manual r =>
    refine h.serve (hp r rfl) hplace fun hdone hwell => ?_
    simpa [State.waits, hdone, hwell.1, hwell.2] using hwaits
  | idle => exact h.leave fun r hr => (howner r hr).resolve_left nofun
  | room => exact h.leave fun r hr => (howner r hr).resolve_left nofun
  | work => exact h.leave fun r hr => (howner r hr).resolve_left nofun

/-- A step leaves requests and slot in order. -/
theorem step (h : Requests s) {a : Action T} (hstep : s.step a = some s') : Requests s' := by
  cases Effect.of_step hstep with
  | queue imm needs =>
    exact h.of_same (.queue s imm needs) (maybeSchedule_manual _)
  | wait t p hp hidle => exact h.again (fun r hr => absurd hr (hp r)) (.inl hidle)
  | request t hidle =>
    exact h.newRequest.again (fun r hr => by cases hr; exact Nat.lt_succ_self _) (.inl hidle)
  | wake t => exact h.again (h.made t) (.inr rfl)
  | recordError => exact h.of_same (.recordBackgroundError s) (recordBackgroundError_manual s)
  | shutDown =>
    exact h.of_same ⟨rfl, rfl, rfl, rfl, fun hwell => nomatch hwell.2⟩ (notify_manual _)
  | work o _ hwork => exact h.workStep (.workStep hwork)

theorem again_manual (s : State T) (t : T) (p : Place) :
    (s.again t p).worker.manual = s.worker.manual := by
  unfold State.again State.serve
  split_ifs
  · rfl
  cases p with
  | manual r =>
    dsimp only
    split_ifs
    · rfl
    · rfl
    · exact maybeSchedule_manual _
  | _ => rfl

/-- With no error and no shutdown no thread takes the request the background thread holds
    out of the slot. -/
theorem again_slot (h : Requests s) {r : ℕ} (hr : s.worker.manual = some r)
    (hslot : s.slot = some r) (hwell : s.Healthy) (t : T) (p : Place) :
    (s.again t p).slot = some r := by
  unfold State.again
  split_ifs with hwaits
  · exact hslot
  cases p with
  | manual q =>
    -- the loop ends for a request that is done, which the one held is not
    have hdone : s.done q = true := by
      simpa [State.waits, hwell.1, hwell.2, hslot] using hwaits
    have hne : r ≠ q := by
      rintro rfl
      cases (h.held r hr).1.symm.trans hdone
    simp only [State.serve, hdone, Bool.true_or, if_true, hslot, Option.some.injEq, hne, if_false]
    rfl
  | idle => exact hslot
  | room => exact hslot
  | work => exact hslot

/-- With no error and no shutdown the request that is held stays in the slot. -/
theorem slot_step (h : Requests s) {a : Action T} (hstep : s.step a = some s')
    (hheld : ∀ r, s.worker.manual = some r → s.slot = some r ∧ s.Healthy) (r : ℕ)
    (hr : s'.worker.manual = some r) : s'.slot = some r := by
  cases Effect.of_step hstep with
  | queue imm needs =>
    rw [maybeSchedule_manual] at hr
    exact (Same.queue s imm needs).slot.trans (hheld r hr).1
  | wait t p =>
    rw [again_manual] at hr
    exact h.again_slot hr (hheld r hr).1 (hheld r hr).2 t p
  | request t =>
    rw [again_manual] at hr
    exact h.newRequest.again_slot hr (hheld r hr).1 (hheld r hr).2 t _
  | wake t =>
    rw [again_manual] at hr
    exact h.again_slot hr (hheld r hr).1 (hheld r hr).2 t _
  | recordError =>
    rw [(Same.recordBackgroundError s).slot]
    exact (hheld r ((recordBackgroundError_manual s).symm.trans hr)).1
  | shutDown => exact (hheld r ((notify_manual _).symm.trans hr)).1
  | work o _ hwork =>
    rcases (WorkEffect.workStep hwork).slot with ⟨hslot, hold⟩ | ⟨-, -, -, hnone⟩
    · rw [hslot]
      exact (hold r hr).elim (fun hr' => (hheld r hr'.1).1) And.left
    · cases hnone.symm.trans hr

end Requests

theorem opened_requests (needs : Bool) (level0 : ℕ) :
    Requests (opened needs level0 : State T) := by
  refine Requests.of_same ?_ (.maybeSchedule _) (maybeSchedule_manual _)
  exact ⟨nofun, nofun, nofun⟩

section

variable [DecidableEq T]

theorem Requests.run {needs : Bool} {level0 : ℕ} {as : List (Action T)} {s : State T}
    (hrun : Lib.run State.step (opened needs level0) as = some s) : Requests s :=
  Lib.run_invariant State.step (fun _ _ _ h hstep => Requests.step h hstep)
    (opened_requests needs level0) hrun

/-- **Requests on their callers' stacks**, in every state of every run: the request in the
    slot is waited for; so is the one the background thread holds, if there never was an
    error or a shutdown while it held one; and the thread clears no slot that a request
    other than its own is in. -/
theorem manual_requests_live (needs : Bool) (level0 : ℕ) (as : List (Action T)) (s : State T)
    (hrun : Lib.run State.step (opened needs level0) as = some s) :
    (∀ r, s.slot = some r → ∃ t, s.place t = .manual r) ∧
    (Lib.Along State.step (fun s _ => s.worker.manual ≠ none → s.Healthy) (opened needs level0) as →
      ∀ r, s.worker.manual = some r → ∃ t, s.place t = .manual r) ∧
    (∀ o s', s.workStep o = some s' → s'.slot ≠ s.slot → s.worker.manual = s.slot) := by
  have h := Requests.run hrun
  refine ⟨h.owner, fun hwell r hr => ?_, fun o s' hstep hslot => ?_⟩
  · have hstep : ∀ (s : State T) a s',
        (Requests s ∧ ∀ r, s.worker.manual = some r → s.slot = some r) →
        (s.worker.manual ≠ none → s.Healthy) → s.step a = some s' →
        Requests s' ∧ ∀ r, s'.worker.manual = some r → s'.slot = some r :=
      fun _ _ _ hinv hok hstep => ⟨hinv.1.step hstep, hinv.1.slot_step hstep fun r hr =>
        ⟨hinv.2 r hr, hok (by rw [hr]; nofun)⟩⟩
    have hopened : ∀ r, (opened needs level0 : State T).worker.manual = some r →
        (opened needs level0 : State T).slot = some r := by
      intro r hr
      rw [opened, maybeSchedule_manual] at hr
      cases hr
    have hheld := Lib.run_invariant_of State.step hstep ⟨opened_requests needs level0, hopened⟩
      hwell hrun
    exact h.owner r (hheld.2 r hr)
  · rcases (WorkEffect.workStep hstep).slot with ⟨hsame, -⟩ | ⟨r, hr, hnone, -⟩
    · exact absurd hsame hslot
    · rcases (h.held r hr).2 with hr' | ⟨hnone', -⟩
      · exact hr.trans hr'.symm
      · exact absurd (hnone.trans hnone'.symm) hslot

/-- A writer records an error while the compaction of a request is under way; the owner
    of the request leaves, and the compaction comes to its end. -/
def errorInCompaction : List (Action Unit) :=
  let o : Outcome := ⟨true, true, false, false, false, false, 0⟩
  [.compactRange (), .work o, .work o, .recordError, .wake (), .work o, .work o]

/-- The last step writes to a request that is gone. -/
theorem manual_request_gone :
    ∃ s s', Lib.run State.step (opened false 0 : State Unit) errorInCompaction = some s ∧
      s.worker.manual = some 0 ∧ (∀ t, s.place t ≠ .manual 0) ∧
      s.workStep ⟨false, true, false, false, false, false, 0⟩ = some s' ∧ s'.done 0 = true := by
  have heval : ((Lib.run State.step (opened false 0 : State Unit) errorInCompaction).bind fun s =>
      (s.workStep ⟨false, true, false, false, false, false, 0⟩).map fun s' =>
        (s.worker.manual, decide (∀ t, s.place t ≠ .manual 0), s'.done 0)) =
      some (some 0, true, true) := by
    decide +kernel
  obtain ⟨s, hs, heval⟩ := Option.bind_eq_some_iff.mp heval
  obtain ⟨s', hs', heq⟩ := Option.map_eq_some_iff.mp heval
  simp only [Prod.mk.injEq, decide_eq_true_eq] at heq
  exact ⟨s, s', hs, heq.1, heq.2.1, hs', heq.2.2⟩

theorem manual_requests_live_one :
    let o : Outcome := ⟨true, true, false, false, false, false, 0⟩
    ∃ s, Lib.run State.step (opened false 0 : State Unit) [.compactRange (), .work o, .work o] =
        some s ∧ s.worker.manual = some 0 ∧ ∃ t, s.place t = .manual 0 := by
  intro o
  have heval : (Lib.run State.step (opened false 0 : State Unit)
      [.compactRange (), .work o, .work o]).map (fun s => s.worker.manual) = some (some 0) := by
    decide +kernel
  obtain ⟨s, hs, heq⟩ := Option.map_eq_some_iff.mp heval
  exact ⟨s, hs, heq, (manual_requests_live false 0 _ s hs).2.1 (by decide +kernel) 0 heq⟩

end

end Background

end Ambar
