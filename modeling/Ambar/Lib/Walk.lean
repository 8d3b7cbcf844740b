import Mathlib.Data.Finset.Card
import Mathlib.Data.List.Nodup
import Mathlib.Tactic

/-!
# Deterministic walks

A walk is at a key, takes the element `next` names there and goes on at that element's own
key, until `next` names none. Over finitely many elements it halts exactly when it never
comes back to an element.

* `Path.nodup`: a walk that halts takes no element twice.
* `exists_path_iff`: a walk over the elements of a list halts iff no element it comes to
  leads back to itself; it then takes no more elements than the list has.
-/

namespace Ambar.Lib

variable {κ α : Type*} (next : κ → Option α) (key : α → κ)

/-- The elements taken from `k` on, after those in `taken`; `none` where `fuel` tests are
    not enough. -/
def walk : (fuel : ℕ) → κ → List α → Option (List α)
  | 0, _, _ => none
  | fuel + 1, k, taken =>
    match next k with
    | none => some taken
    | some a => walk fuel (key a) (taken ++ [a])

/-- The walk from `k` takes exactly these elements and halts. -/
def Path : κ → List α → Prop
  | k, [] => next k = none
  | k, a :: as => next k = some a ∧ Path (key a) as

/-- The walk from a key comes to an element. -/
inductive Leads : κ → α → Prop
  | head {k : κ} {a : α} : next k = some a → Leads k a
  | tail {k : κ} {a b : α} : next k = some a → Leads (key a) b → Leads k b

variable {next key}

theorem walk_eq_some {fuel : ℕ} {k : κ} {taken result : List α} :
    walk next key fuel k taken = some result ↔
      ∃ as, Path next key k as ∧ as.length < fuel ∧ result = taken ++ as := by
  induction fuel generalizing k taken with
  | zero => simp [walk]
  | succ fuel ih =>
    rw [walk]
    cases hnext : next k with
    | none =>
      constructor
      · rintro ⟨⟩
        exact ⟨[], hnext, Nat.succ_pos _, (List.append_nil _).symm⟩
      · rintro ⟨as, hpath, -, rfl⟩
        cases as with
        | nil => exact congrArg some (List.append_nil _).symm
        | cons a as => cases hnext.symm.trans hpath.1
    | some a =>
      dsimp only
      rw [ih]
      constructor
      · rintro ⟨as, hpath, hlen, rfl⟩
        exact ⟨a :: as, ⟨hnext, hpath⟩, Nat.succ_lt_succ hlen, List.append_assoc _ [a] as⟩
      · rintro ⟨as, hpath, hlen, rfl⟩
        cases as with
        | nil => exact nomatch hnext.symm.trans hpath
        | cons b as =>
          obtain rfl := Option.some.inj (hnext.symm.trans hpath.1)
          exact ⟨as, hpath.2, Nat.lt_of_succ_lt_succ hlen, (List.append_assoc _ [a] as).symm⟩

theorem Path.unique {k : κ} {as bs : List α} (ha : Path next key k as) (hb : Path next key k bs) :
    as = bs := by
  induction as generalizing k bs with
  | nil =>
    cases bs with
    | nil => rfl
    | cons b bs => cases ha.symm.trans hb.1
  | cons a as ih =>
    cases bs with
    | nil => cases hb.symm.trans ha.1
    | cons b bs =>
      obtain rfl := Option.some.inj (ha.1.symm.trans hb.1)
      rw [ih ha.2 hb.2]

/-- What a halting walk comes to, it takes, and from there on it takes a proper end. -/
theorem Path.of_leads {k : κ} {b : α} (h : Leads next key k b) :
    ∀ {as}, Path next key k as → ∃ cs bs, as = cs ++ b :: bs ∧ Path next key (key b) bs := by
  induction h with
  | head hnext =>
    intro as hpath
    cases as with
    | nil => exact nomatch hnext.symm.trans hpath
    | cons a as =>
      obtain rfl := Option.some.inj (hnext.symm.trans hpath.1)
      exact ⟨[], as, rfl, hpath.2⟩
  | tail hnext _ ih =>
    intro as hpath
    cases as with
    | nil => exact nomatch hnext.symm.trans hpath
    | cons c as =>
      obtain rfl := Option.some.inj (hnext.symm.trans hpath.1)
      obtain ⟨cs, bs, rfl, hbs⟩ := ih hpath.2
      exact ⟨_ :: cs, bs, rfl, hbs⟩

/-- On a halting walk no element leads back to itself. -/
theorem Path.not_leads_self {k : κ} {as : List α} (hpath : Path next key k as) {a : α}
    (h : Leads next key k a) : ¬ Leads next key (key a) a := by
  intro hself
  obtain ⟨cs, bs, -, hbs⟩ := Path.of_leads h hpath
  obtain ⟨cs', bs', rfl, hbs'⟩ := Path.of_leads hself hbs
  -- the walk from `a` would be a proper end of itself
  have hlen := congrArg List.length (hbs.unique hbs')
  simp only [List.length_append, List.length_cons] at hlen
  omega

theorem Path.leads_of_mem {k : κ} {as : List α} (hpath : Path next key k as) {a : α} (ha : a ∈ as) :
    Leads next key k a := by
  induction as generalizing k with
  | nil => exact nomatch ha
  | cons b as ih =>
    rcases List.mem_cons.mp ha with rfl | ha
    · exact .head hpath.1
    · exact .tail hpath.1 (ih hpath.2 ha)

theorem Path.nodup {k : κ} {as : List α} (hpath : Path next key k as) : as.Nodup := by
  induction as generalizing k with
  | nil => exact List.nodup_nil
  | cons a as ih =>
    refine List.nodup_cons.mpr ⟨fun ha => ?_, ih hpath.2⟩
    exact hpath.not_leads_self (.head hpath.1) (hpath.2.leads_of_mem ha)

/-- A walk that never comes back takes at most the elements of a finite set it stays in. -/
theorem exists_path_of_leads_subset (s : Finset α) :
    ∀ k, (∀ a, Leads next key k a → a ∈ s) →
      (∀ a, Leads next key k a → ¬ Leads next key (key a) a) →
      ∃ as, Path next key k as ∧ as.length ≤ s.card := by
  classical
  -- each turn leaves the element it takes out of what is still to come
  induction s using Finset.strongInduction with
  | H s ih =>
    intro k hsub hback
    cases hnext : next k with
    | none => exact ⟨[], hnext, Nat.zero_le _⟩
    | some a =>
      have ha : a ∈ s := hsub a (.head hnext)
      obtain ⟨as, hpath, hlen⟩ := ih (s.erase a) (Finset.erase_ssubset ha) (key a)
        (fun b hb => Finset.mem_erase.mpr
          ⟨fun hab => hback a (.head hnext) (hab ▸ hb), hsub b (.tail hnext hb)⟩)
        (fun b hb => hback b (.tail hnext hb))
      rw [Finset.card_erase_of_mem ha] at hlen
      have hpos := Finset.card_pos.mpr ⟨a, ha⟩
      exact ⟨a :: as, ⟨hnext, hpath⟩, by rw [List.length_cons]; omega⟩

theorem exists_path_iff {elements : List α} (hmem : ∀ k a, next k = some a → a ∈ elements) (k : κ) :
    (∃ as, Path next key k as ∧ as.length ≤ elements.length) ↔
      ∀ a, Leads next key k a → ¬ Leads next key (key a) a := by
  classical
  constructor
  · rintro ⟨as, hpath, -⟩ a ha
    exact hpath.not_leads_self ha
  · intro hback
    have hsub : ∀ a, Leads next key k a → a ∈ elements.toFinset := by
      intro a ha
      induction ha with
      | head hnext => exact List.mem_toFinset.mpr (hmem _ _ hnext)
      | tail hnext _ ih => exact ih fun b hb => hback b (.tail hnext hb)
    obtain ⟨as, hpath, hlen⟩ := exists_path_of_leads_subset _ k hsub hback
    exact ⟨as, hpath, hlen.trans (List.toFinset_card_le _)⟩

end Ambar.Lib
