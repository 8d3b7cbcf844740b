import Mathlib.Order.Basic

/-!
# Programs that make calls

A program is a tree of calls, each followed by what the program does with the answer. A
machine answers a call with any of the answers it allows and changes its state with it, so
a call that fails is one more answer, and a program that stops anywhere has reached the
state it was in.

`Safe` is the partial correctness of such a program: an invariant at every state it
reaches, a guard at every call it makes, and a postcondition where it returns. Since a run
may end anywhere, the invariant is asked for between any two calls.

* `Safe.bind`, `Safe.except`: sequencing, without and with failures.
* `Safe.exceptFoldlM`: loops over a list.
* `Safe.reaches`: what the rules establish holds of every run.
-/

namespace Ambar.Lib

/-- A program over calls `c` answered in `A c`. -/
inductive Program {C : Type} (A : C → Type) (α : Type) where
  | done (a : α)
  | call (c : C) (next : A c → Program A α)

namespace Program

variable {C : Type} {A : C → Type} {α β : Type}

def bind (p : Program A α) (f : α → Program A β) : Program A β :=
  match p with
  | done a => f a
  | call c next => call c fun r => (next r).bind f

instance : Monad (Program A) where
  pure := done
  bind := bind

/-- One call. -/
def ask (c : C) : Program A (A c) := call c done

end Program

section Machine

variable {C σ : Type} {A : C → Type} {α β ε : Type} (step : (c : C) → σ → A c → σ → Prop)

/-- From a program and a state to what is left of it and the state then. -/
inductive Reaches : Program A α → σ → Program A α → σ → Prop
  | refl (p : Program A α) (s : σ) : Reaches p s p s
  | call {c : C} {next : A c → Program A α} {s s' t : σ} {r : A c} {q : Program A α}
      (hstep : step c s r s') (hrest : Reaches (next r) s' q t) : Reaches (.call c next) s q t

/-- An invariant, a guard for the calls and a postcondition. -/
def Safe (I : σ → Prop) (G : C → σ → Prop) : Program A α → σ → (α → σ → Prop) → Prop
  | .done a, s, Q => I s ∧ Q a s
  | .call c next, s, Q => I s ∧ G c s ∧ ∀ r s', step c s r s' → Safe I G (next r) s' Q

variable {step} {I : σ → Prop} {G : C → σ → Prop} {s : σ}

theorem Reaches.trans {p q r : Program A α} {s t u : σ} (h : Reaches step p s q t)
    (h' : Reaches step q t r u) : Reaches step p s r u := by
  induction h with
  | refl => exact h'
  | call hstep _ ih => exact .call hstep (ih h')

theorem Reaches.bind {p q : Program A α} {s t : σ} (h : Reaches step p s q t)
    (f : α → Program A β) : Reaches step (p.bind f) s (q.bind f) t := by
  induction h with
  | refl => exact .refl _ _
  | call hstep _ ih => exact .call hstep ih

/-- A part that ends well, and what follows it. -/
theorem Reaches.except {p : ExceptT ε (Program A) α} {f : α → ExceptT ε (Program A) β} {a : α}
    {q : Program A (Except ε β)} {s t u : σ} (h : Reaches step p.run s (.done (.ok a)) t)
    (h' : Reaches step (f a).run t q u) : Reaches step (p >>= f).run s q u :=
  (h.bind (ExceptT.bindCont f)).trans h'

theorem Reaches.mono {step' : (c : C) → σ → A c → σ → Prop} {p q : Program A α} {s t : σ}
    (h : Reaches step p s q t) (hstep : ∀ c s r s', step c s r s' → step' c s r s') :
    Reaches step' p s q t := by
  induction h with
  | refl => exact .refl _ _
  | call h _ ih => exact .call (hstep _ _ _ _ h) ih

namespace Safe

theorem inv {p : Program A α} {Q : α → σ → Prop} (h : Safe step I G p s Q) : I s := by
  cases p with
  | done a => exact h.1
  | call c next => exact h.1

/-- The invariant and the guard hold all along a run. -/
theorem reaches {p q : Program A α} {t : σ} {Q : α → σ → Prop} (h : Safe step I G p s Q)
    (hr : Reaches step p s q t) : Safe step I G q t Q := by
  induction hr with
  | refl => exact h
  | call hstep _ ih => exact ih (h.2.2 _ _ hstep)

theorem mono {p : Program A α} {Q R : α → σ → Prop} (h : Safe step I G p s Q)
    (hQ : ∀ a t, I t → Q a t → R a t) : Safe step I G p s R := by
  induction p generalizing s with
  | done a => exact ⟨h.1, hQ a s h.1 h.2⟩
  | call c next ih => exact ⟨h.1, h.2.1, fun r s' hstep => ih r (h.2.2 r s' hstep)⟩

/-- A fact that every step keeps is one more invariant. -/
theorem invariant (I' : σ → Prop) {p : Program A α} {Q : α → σ → Prop} (h : Safe step I G p s Q)
    (hs : I' s) (hkeep : ∀ c t r t', I t → G c t → I' t → step c t r t' → I' t') :
    Safe step (fun t => I t ∧ I' t) G p s (fun a t => Q a t ∧ I' t) := by
  induction p generalizing s with
  | done a => exact ⟨⟨h.1, hs⟩, h.2, hs⟩
  | call c next ih =>
    exact ⟨⟨h.1, hs⟩, h.2.1, fun r s' hstep =>
      ih r (h.2.2 r s' hstep) (hkeep c s r s' h.1 h.2.1 hs hstep)⟩

/-- One call, from what a step of it does. -/
theorem ask {c : C} {Q : A c → σ → Prop} (hI : I s) (hG : G c s)
    (hstep : ∀ r s', step c s r s' → I s' ∧ Q r s') :
    Safe step I G (Program.ask c) s Q := ⟨hI, hG, hstep⟩

theorem bind {p : Program A α} {f : α → Program A β} {Q : α → σ → Prop} {R : β → σ → Prop}
    (h : Safe step I G p s Q) (hf : ∀ a t, I t → Q a t → Safe step I G (f a) t R) :
    Safe step I G (p >>= f) s R := by
  induction p generalizing s with
  | done a => exact hf a s h.1 h.2
  | call c next ih => exact ⟨h.1, h.2.1, fun r s' hstep => ih r (h.2.2 r s' hstep)⟩

/-! ### Programs that may fail -/

/-- What is asked of a program that may fail: one postcondition for either end. -/
abbrev Ends (E : ε → σ → Prop) (Q : α → σ → Prop) : Except ε α → σ → Prop
  | .ok a, s => Q a s
  | .error e, s => E e s

variable {E : ε → σ → Prop}

theorem except {p : ExceptT ε (Program A) α} {f : α → ExceptT ε (Program A) β}
    {Q : α → σ → Prop} {R : β → σ → Prop} (h : Safe step I G p.run s (Ends E Q))
    (hf : ∀ a t, I t → Q a t → Safe step I G (f a).run t (Ends E R)) :
    Safe step I G (p >>= f).run s (Ends E R) := by
  refine Safe.bind h fun r t hI hr => ?_
  cases r with
  | ok a => exact hf a t hI hr
  | error e => exact ⟨hI, hr⟩

theorem lift {p : Program A α} {f : α → ExceptT ε (Program A) β} {Q : α → σ → Prop}
    {R : β → σ → Prop} (h : Safe step I G p s Q)
    (hf : ∀ a t, I t → Q a t → Safe step I G (f a).run t (Ends E R)) :
    Safe step I G (ExceptT.lift p >>= f).run s (Ends E R) := by
  refine Safe.except (Q := Q) ?_ hf
  refine Safe.bind h fun a t hI hQ => ?_
  exact ⟨hI, hQ⟩

theorem exceptPure {a : α} {Q : α → σ → Prop} (hI : I s) (hQ : Q a s) :
    Safe step I G (Pure.pure a : ExceptT ε (Program A) α).run s (Ends E Q) := ⟨hI, hQ⟩

theorem throw {e : ε} {Q : α → σ → Prop} (hI : I s) (hE : E e s) :
    Safe step I G (MonadExcept.throw e : ExceptT ε (Program A) α).run s (Ends E Q) := ⟨hI, hE⟩

theorem exceptFoldlM {γ : Type} {f : β → γ → ExceptT ε (Program A) β} (J : List γ → β → σ → Prop)
    (hf : ∀ a l b t, I t → J (a :: l) b t → Safe step I G (f b a).run t (Ends E (J l))) :
    ∀ (l : List γ) {b : β} {s : σ}, I s → J l b s →
      Safe step I G (l.foldlM f b).run s (Ends E (J [])) := by
  intro l
  induction l with
  | nil => exact fun hI hJ => ⟨hI, hJ⟩
  | cons a l ih =>
    intro b s hI hJ
    rw [List.foldlM_cons]
    exact Safe.except (hf a l b s hI hJ) fun b' t hI' hJ' => ih hI' hJ'

theorem exceptForM {γ : Type} {f : γ → ExceptT ε (Program A) PUnit} (J : List γ → σ → Prop)
    (hf : ∀ a l t, I t → J (a :: l) t → Safe step I G (f a).run t (Ends E fun _ => J l)) :
    ∀ (l : List γ) {s : σ}, I s → J l s →
      Safe step I G (l.forM f).run s (Ends E fun _ => J []) := by
  intro l
  induction l with
  | nil => exact fun hI hJ => ⟨hI, hJ⟩
  | cons a l ih =>
    intro s hI hJ
    show Safe step I G (f a >>= fun _ => l.forM f).run s _
    exact Safe.except (hf a l s hI hJ) fun _ t hI' hJ' => ih hI' hJ'

end Safe

end Machine

end Ambar.Lib
