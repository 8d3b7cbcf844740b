import Mathlib.Data.Finset.Lattice.Fold
import Mathlib.Data.List.Sort
import Mathlib.Tactic

/-!
# Runs of a transition system

A transition system is a function `step : σ → α → Option σ`: the state after an
action, or `none` where the action is not enabled. A run is a list of actions.

* `run_append`: runs compose.
* `run_invariant`: what holds at the start and is kept by every step holds at
  the end of every run.
* `run_invariant_of`: the same for runs all of whose steps meet a condition on
  the state before the step and the action.
-/

namespace Ambar.Lib

variable {σ α : Type*} (step : σ → α → Option σ)

/-- The state after the actions of a list, taken in order. -/
def run : σ → List α → Option σ
  | s, [] => some s
  | s, a :: as => (step s a).bind fun s' => run s' as

@[simp] theorem run_nil (s : σ) : run step s [] = some s := rfl

theorem run_cons (s : σ) (a : α) (as : List α) :
    run step s (a :: as) = (step s a).bind fun s' => run step s' as := rfl

theorem run_append (s : σ) (as bs : List α) :
    run step s (as ++ bs) = (run step s as).bind fun s' => run step s' bs := by
  induction as generalizing s with
  | nil => rfl
  | cons a as ih =>
    simp only [List.cons_append, run_cons]
    cases step s a with
    | none => rfl
    | some s' => exact ih s'

theorem run_cons_eq_some {s t : σ} {a : α} {as : List α} :
    run step s (a :: as) = some t ↔ ∃ s', step s a = some s' ∧ run step s' as = some t := by
  rw [run_cons, Option.bind_eq_some_iff]

/-- Every step of the run `as` from `s` meets `ok`. -/
def Along (ok : σ → α → Prop) : σ → List α → Prop
  | _, [] => True
  | s, a :: as => ok s a ∧ ∀ s', step s a = some s' → Along ok s' as

instance Along.decidable {ok : σ → α → Prop} [∀ s a, Decidable (ok s a)] :
    ∀ s as, Decidable (Along step ok s as)
  | _, [] => .isTrue trivial
  | s, a :: as =>
    match h : step s a with
    | none => decidable_of_iff (ok s a)
        ⟨fun hok => ⟨hok, fun _ hs => nomatch h.symm.trans hs⟩, And.left⟩
    | some s' =>
      haveI : Decidable (Along step ok s' as) := Along.decidable s' as
      decidable_of_iff (ok s a ∧ Along step ok s' as)
        ⟨fun hok => ⟨hok.1, fun _ hs => Option.some.inj (h.symm.trans hs) ▸ hok.2⟩,
          fun hok => ⟨hok.1, hok.2 s' h⟩⟩

theorem run_invariant_of {ok : σ → α → Prop} {Inv : σ → Prop}
    (hstep : ∀ s a s', Inv s → ok s a → step s a = some s' → Inv s') :
    ∀ {as : List α} {s t : σ}, Inv s → Along step ok s as → run step s as = some t → Inv t := by
  intro as
  induction as with
  | nil =>
    intro s t hs _ hr
    cases hr
    exact hs
  | cons a as ih =>
    intro s t hs hok hr
    obtain ⟨s', ha, hr'⟩ := (run_cons_eq_some step).mp hr
    exact ih (hstep s a s' hs hok.1 ha) (hok.2 s' ha) hr'

theorem along_true (s : σ) (as : List α) : Along step (fun _ _ => True) s as := by
  induction as generalizing s with
  | nil => trivial
  | cons a as ih => exact ⟨trivial, fun s' _ => ih s'⟩

theorem run_invariant {Inv : σ → Prop}
    (hstep : ∀ s a s', Inv s → step s a = some s' → Inv s') {as : List α} {s t : σ}
    (hs : Inv s) (hr : run step s as = some t) : Inv t :=
  run_invariant_of step (fun s a s' h _ h' => hstep s a s' h h') hs (along_true step s as) hr

end Ambar.Lib
