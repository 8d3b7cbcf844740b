import Mathlib.Data.List.Basic
import Mathlib.Data.List.Infix
import Mathlib.Tactic.Ring

/-!
# Texts described by copies

A text can be given as runs of literals, each followed by a copy of what stands some
way back in the text itself. A decoder writes the text into a buffer from the front;
what the buffer holds past the front does not matter.

* `agree_overwrite`: writing at the front.
* `agree_copySteps`: copying a repeated stretch in steps, the last of which may spill.
* `agree_copyEach`: copying it element by element.
-/

namespace Ambar.Lib

variable {α : Type*}

/-! ## Buffers -/

/-- A buffer with some elements written over it from a position on. -/
def overwrite (buf : List α) (at_ : ℕ) (xs : List α) : List α :=
  buf.take at_ ++ xs ++ buf.drop (at_ + xs.length)

/-- The buffer and the text agree on their first `n` places. -/
def Agree (buf text : List α) (n : ℕ) : Prop := ∀ i < n, buf[i]? = text[i]?

theorem length_overwrite {buf xs : List α} {at_ : ℕ} (h : at_ + xs.length ≤ buf.length) :
    (overwrite buf at_ xs).length = buf.length := by
  rw [overwrite, List.length_append, List.length_append, List.length_take, List.length_drop]
  omega

theorem getElem?_overwrite {buf xs : List α} {at_ : ℕ} (h : at_ ≤ buf.length) (i : ℕ) :
    (overwrite buf at_ xs)[i]? =
      if i < at_ then buf[i]? else if i < at_ + xs.length then xs[i - at_]? else buf[i]? := by
  have htake : (buf.take at_).length = at_ := by
    rw [List.length_take]
    omega
  unfold overwrite
  split_ifs with h1 h2
  · rw [List.append_assoc, List.getElem?_append_left (by omega), List.getElem?_take, if_pos h1]
  · rw [List.append_assoc, List.getElem?_append_right (by omega), htake,
      List.getElem?_append_left (by omega)]
  · rw [List.getElem?_append_right (by rw [List.length_append]; omega), List.length_append, htake,
      List.getElem?_drop]
    congr 1
    omega

/-- Writing at the front; what is written may spill past the `k` elements that count. -/
theorem agree_overwrite {buf text xs : List α} {n k : ℕ} (h : Agree buf text n)
    (hn : n ≤ buf.length) (hk : k ≤ xs.length) (hxs : ∀ j < k, xs[j]? = text[n + j]?) :
    Agree (overwrite buf n xs) text (n + k) := by
  intro i hi
  rw [getElem?_overwrite hn]
  split_ifs with h1 h2
  · exact h i h1
  · rw [hxs (i - n) (by omega)]
    congr 1
    omega
  · omega

theorem Agree.eq {buf text : List α} (h : Agree buf text text.length)
    (hlen : buf.length = text.length) : buf = text := by
  refine List.ext_getElem? fun i => ?_
  by_cases hi : i < text.length
  · exact h i hi
  · rw [List.getElem?_eq_none (by omega), List.getElem?_eq_none (by omega)]

/-! ## Repetitions -/

/-- From `pos` on, `n` elements of the text are the ones `offset` places before them. -/
def Repeats (text : List α) (offset pos n : ℕ) : Prop :=
  ∀ i < n, text[pos + i]? = text[pos + i - offset]?

theorem Repeats.take_eq {text : List α} {a pos k n : ℕ} (h : Repeats text (pos - a) pos n)
    (ha : a ≤ pos) (heq : (text.drop (a + n)).take k = (text.drop (pos + n)).take k) :
    Repeats text (pos - a) pos (n + k) := by
  intro i hi
  by_cases hlt : i < n
  · exact h i hlt
  · have hget := congrArg (fun l => l[i - n]?) heq
    simp only [List.getElem?_take, List.getElem?_drop] at hget
    rw [if_pos (by omega), if_pos (by omega), show pos + n + (i - n) = pos + i by omega] at hget
    rw [← hget]
    congr 1
    omega

/-- A decoder's copy in steps: `read` gives the elements of a step from the buffer as it
    is then and the distance copied so far; a step is made in any case. -/
def copySteps (step : ℕ) (read : List α → ℕ → List α) (start n : ℕ) :
    (turns done : ℕ) → List α → List α
  | 0, _, buf => buf
  | turns + 1, done, buf =>
    let buf := overwrite buf (start + done) (read buf done)
    if start + (done + step) < start + n then copySteps step read start n turns (done + step) buf
    else buf

/-- **A copy in steps**: each step reads, where it counts, what the text has there. -/
theorem agree_copySteps {step : ℕ} {read : List α → ℕ → List α} {text : List α} {start n : ℕ}
    (hstep : 0 < step)
    (hread : ∀ buf done, Agree buf text (start + done) → buf.length = text.length → done ≤ n →
      (read buf done).length = step ∧
        ∀ j < step, done + j < n → (read buf done)[j]? = text[start + done + j]?)
    (hroom : start + n + step ≤ text.length) :
    ∀ {turns done : ℕ} {buf : List α}, n < turns + done → done ≤ n →
      Agree buf text (start + done) → buf.length = text.length →
      Agree (copySteps step read start n turns done buf) text (start + n) ∧
        (copySteps step read start n turns done buf).length = text.length := by
  intro turns
  induction turns with
  | zero => intro done buf hlt hle; omega
  | succ turns ih =>
    intro done buf hlt hle hagree hlen
    obtain ⟨hread1, hread2⟩ := hread buf done hagree hlen hle
    have hlen' : (overwrite buf (start + done) (read buf done)).length = text.length := by
      rw [length_overwrite (by omega), hlen]
    have hagree' : ∀ k, k ≤ step → done + k ≤ n →
        Agree (overwrite buf (start + done) (read buf done)) text (start + done + k) := by
      intro k hk hkn
      exact agree_overwrite hagree (by omega) (by omega) fun j hj => hread2 j (by omega) (by omega)
    rw [copySteps]
    split_ifs with hmore
    · exact ih (by omega) (by omega) (by
        have := hagree' step le_rfl (by omega)
        rwa [show start + done + step = start + (done + step) by omega] at this) hlen'
    · have := hagree' (n - done) (by omega) (by omega)
      rw [show start + done + (n - done) = start + n by omega] at this
      exact ⟨this, hlen'⟩

/-- A decoder's copy element by element. -/
def copyEach (default : α) (start offset : ℕ) : (n : ℕ) → List α → List α
  | 0, buf => buf
  | n + 1, buf =>
    let buf := copyEach default start offset n buf
    buf.set (start + n) (buf.getD (start + n - offset) default)

/-- **A copy element by element** may read what it has written itself. -/
theorem agree_copyEach {default : α} {text : List α} {start offset : ℕ} (hoff : 0 < offset)
    (hle : offset ≤ start) :
    ∀ {n : ℕ} {buf : List α}, start + n ≤ text.length → Repeats text offset start n →
      Agree buf text start → buf.length = text.length →
      Agree (copyEach default start offset n buf) text (start + n) ∧
        (copyEach default start offset n buf).length = text.length := by
  intro n
  induction n with
  | zero => exact fun _ _ hagree hlen => ⟨hagree, hlen⟩
  | succ n ih =>
    intro buf hroom hrep hagree hlen
    obtain ⟨hagree', hlen'⟩ := ih (by omega) (fun i hi => hrep i (by omega)) hagree hlen
    rw [copyEach]
    refine ⟨fun i hi => ?_, by rw [List.length_set, hlen']⟩
    by_cases hlast : i = start + n
    · subst hlast
      have hback := hagree' (start + n - offset) (by omega)
      rw [List.getElem?_set_self (by omega), List.getD_eq_getElem?_getD, hback, ← hrep n (by omega),
        List.getElem?_eq_getElem (by omega : start + n < text.length), Option.getD_some]
    · rw [List.getElem?_set_ne (by omega)]
      exact hagree' i (by omega)

/-! ## Descriptions -/

/-- Some literals, and a copy of `length` elements from `offset` places back. -/
structure Copy (α : Type*) where
  literals : List α
  offset : ℕ
  length : ℕ

/-- The elements of the text a copy stands for. -/
def Copy.size (c : Copy α) : ℕ := c.literals.length + c.length

/-- The copies describe the text from one position to another. -/
inductive Copies (text : List α) : ℕ → List (Copy α) → ℕ → Prop
  | nil (pos : ℕ) : Copies text pos [] pos
  | cons {pos stop : ℕ} {c : Copy α} {cs : List (Copy α)} (hliterals : c.literals <+: text.drop pos)
      (hoffset : 0 < c.offset) (hback : c.offset ≤ pos + c.literals.length)
      (hrep : Repeats text c.offset (pos + c.literals.length) c.length)
      (hroom : pos + c.size ≤ text.length) (hcs : Copies text (pos + c.size) cs stop) :
      Copies text pos (c :: cs) stop

theorem Copies.stop_eq {text : List α} {pos stop : ℕ} {cs : List (Copy α)} (h : Copies text pos cs stop) :
    stop = pos + (cs.map Copy.size).sum := by
  induction h with
  | nil pos => simp
  | cons _ _ _ _ _ _ ih =>
    rw [List.map_cons, List.sum_cons, ih]
    omega

theorem Copies.append {text : List α} {a b c : ℕ} {cs ds : List (Copy α)} (h : Copies text a cs b)
    (h' : Copies text b ds c) : Copies text a (cs ++ ds) c := by
  induction h with
  | nil => exact h'
  | cons h1 h2 h3 h4 h5 _ ih => exact .cons h1 h2 h3 h4 h5 (ih h')

end Ambar.Lib
