import Ambar.Version.Files

/-!
# The range `get_overlapping_inputs` settles on

At level 0 a file that meets the range may reach beyond it, and the pass starts again
with the range widened at that end (`src/version_set.cpp`, lines 361–405). Whatever the
order of the files, the passes end at the least widening that no file it meets leaves.

* `Widens.within`: a widening step stays inside every closed widening.
* `getOverlappingInputs_least`: the inputs are the files that meet the least one.
-/

namespace Ambar

/-- `[b', e']` reaches at least as far as `[b, e]` at both ends; a null bound is not
    widened. -/
def WiderThan (b e b' e' : Option Bytes) : Prop :=
  Option.Rel (fun u u' => u' ≤ u) b b' ∧ Option.Rel (fun u u' => u ≤ u') e e'

/-- Every file that meets the range lies inside it. -/
def ClosedRange (files : List FileMetaData) (b e : Option Bytes) : Prop :=
  ∀ f ∈ files, meets b e f = true → within b e f = true

/-- The least widening of `[b, e]` that is closed. -/
structure LeastClosed (files : List FileMetaData) (b e b' e' : Option Bytes) : Prop where
  wider : WiderThan b e b' e'
  closed : ClosedRange files b' e'
  least : ∀ b'' e'', WiderThan b e b'' e'' → ClosedRange files b'' e'' → WiderThan b' e' b'' e''

theorem WiderThan.refl (b e : Option Bytes) : WiderThan b e b e := by
  constructor
  · cases b with
    | none => exact .none
    | some u => exact .some le_rfl
  · cases e with
    | none => exact .none
    | some u => exact .some le_rfl

/-- A file that meets a range meets a wider one. -/
theorem WiderThan.meets {b e b' e' : Option Bytes} (h : WiderThan b e b' e') {f : FileMetaData}
    (hf : meets b e f = true) : meets b' e' f = true := by
  obtain ⟨hb, he⟩ := h
  simp only [Ambar.meets, Bool.and_eq_true, Bool.not_eq_true'] at hf ⊢
  constructor
  · cases hb with
    | none => rfl
    | some hle =>
      simp only [afterFile, decide_eq_false_iff_not, not_lt] at hf ⊢
      exact hle.trans hf.1
  · cases he with
    | none => rfl
    | some hle =>
      simp only [beforeFile, decide_eq_false_iff_not, not_lt] at hf ⊢
      exact hf.2.trans hle

/-- A step only widens. -/
theorem Widens.widerThan {f : FileMetaData} {b₀ e₀ b e b' e' : Option Bytes}
    (h : Widens f b e b' e') (h₀ : WiderThan b₀ e₀ b e) : WiderThan b₀ e₀ b' e' := by
  obtain ⟨hb, he⟩ := h₀
  obtain ⟨-, ⟨hlt, rfl, rfl⟩ | ⟨hlt, rfl, rfl⟩⟩ := h
  · obtain ⟨u, rfl, hu⟩ := (Option.any_eq_true _ _).mp hlt
    cases hb with
    | some hle => exact ⟨.some ((of_decide_eq_true hu).le.trans hle), he⟩
  · obtain ⟨u, rfl, hu⟩ := (Option.any_eq_true _ _).mp hlt
    cases he with
    | some hle => exact ⟨hb, .some (hle.trans (of_decide_eq_true hu).le)⟩

/-- A step stays inside every closed range it started in: the file that widens the range
    meets the closed one too, and so lies inside it. -/
theorem Widens.within {files : List FileMetaData} {f : FileMetaData} (hf : f ∈ files)
    {b e b' e' b'' e'' : Option Bytes} (h : Widens f b e b' e') (hwider : WiderThan b e b'' e'')
    (hclosed : ClosedRange files b'' e'') : WiderThan b' e' b'' e'' := by
  obtain ⟨hmeets, hstep⟩ := h
  have hin := hclosed f hf (hwider.meets hmeets)
  simp only [Ambar.within, Bool.and_eq_true, Bool.not_eq_true'] at hin
  obtain ⟨hb, he⟩ := hwider
  rcases hstep with ⟨hlt, rfl, rfl⟩ | ⟨hlt, rfl, rfl⟩
  · obtain ⟨u, rfl, -⟩ := (Option.any_eq_true _ _).mp hlt
    cases hb with
    | some hle =>
      simp only [Option.any_some, decide_eq_false_iff_not, not_lt] at hin
      exact ⟨.some hin.1, he⟩
  · obtain ⟨u, rfl, -⟩ := (Option.any_eq_true _ _).mp hlt
    cases he with
    | some hle =>
      simp only [Option.any_some, decide_eq_false_iff_not, not_lt] at hin
      exact ⟨hb, .some hin.2⟩

/-- The passes, as many as are needed: more fuel changes nothing. -/
theorem overlapLoop_least (files : List FileMetaData) (b e : Option Bytes) {fuel : ℕ}
    (hfuel : outside files b e < fuel) :
    ∃ b' e', LeastClosed files b e b' e' ∧
      overlapLoop 0 files fuel b e = files.filter (meets b' e') := by
  obtain ⟨b', e', ⟨hwider, hleast⟩, hloop, hclosed⟩ := @overlapLoop_zero files
    (fun x y => WiderThan b e x y ∧ ∀ b'' e'', WiderThan b e b'' e'' → ClosedRange files b'' e'' →
      WiderThan x y b'' e'')
    (fun f hf x y x' y' hxy hstep => ⟨hstep.widerThan hxy.1, fun b'' e'' hw hc =>
      hstep.within hf (hxy.2 b'' e'' hw hc) hc⟩)
    fuel b e hfuel ⟨WiderThan.refl b e, fun _ _ hw _ => hw⟩
  exact ⟨b', e', ⟨hwider, hclosed, hleast⟩, hloop⟩

theorem WiderThan.antisymm {b e b' e' : Option Bytes} (h : WiderThan b e b' e')
    (h' : WiderThan b' e' b e) : b = b' ∧ e = e' := by
  obtain ⟨hb, he⟩ := h
  obtain ⟨hb', he'⟩ := h'
  constructor
  · cases hb with
    | none => rfl
    | some hle =>
      cases hb' with
      | some hle' => rw [le_antisymm hle' hle]
  · cases he with
    | none => rfl
    | some hle =>
      cases he' with
      | some hle' => rw [le_antisymm hle hle']

/-- **The inputs of level 0.** For every list of files and every two bounds there is one
    least closed widening, the passes come to an end, and what they return are the files of
    the list that meet it, each once and in the order of the list. -/
theorem getOverlappingInputs_least (files : List FileMetaData) (b e : Option InternalKey) :
    ∃ b' e', LeastClosed files (b.map (·.userKey)) (e.map (·.userKey)) b' e' ∧
      (∀ x y, LeastClosed files (b.map (·.userKey)) (e.map (·.userKey)) x y → x = b' ∧ y = e') ∧
      getOverlappingInputs 0 files b e = files.filter (meets b' e') ∧
      ∀ fuel, 2 * files.length < fuel →
        overlapLoop 0 files fuel (b.map (·.userKey)) (e.map (·.userKey)) =
          files.filter (meets b' e') := by
  have hbound := outside_le files (b.map (·.userKey)) (e.map (·.userKey))
  have hunique : ∀ {x y x' y'}, LeastClosed files (b.map (·.userKey)) (e.map (·.userKey)) x y →
      LeastClosed files (b.map (·.userKey)) (e.map (·.userKey)) x' y' → x = x' ∧ y = y' :=
    fun h h' => (h.least _ _ h'.wider h'.closed).antisymm (h'.least _ _ h.wider h.closed)
  obtain ⟨b', e', hleast, hloop⟩ := @overlapLoop_least files (b.map (·.userKey))
    (e.map (·.userKey)) (2 * files.length + 1) (by omega)
  refine ⟨b', e', hleast, fun x y hxy => hunique hxy hleast, hloop, fun fuel hfuel => ?_⟩
  obtain ⟨b'', e'', hleast', hloop'⟩ := @overlapLoop_least files (b.map (·.userKey))
    (e.map (·.userKey)) fuel (by omega)
  obtain ⟨rfl, rfl⟩ := hunique hleast' hleast
  exact hloop'

end Ambar
