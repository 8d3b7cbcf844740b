import Ambar.Lib.Recurrence
import Ambar.Repair.Merge

/-!
# Whether the rounds of a repair end

`merge` goes on with rounds while there are more than `kMergeFanIn` tables
(`src/repair.cpp`, lines 402–422). A round cuts its outputs by bytes, so it may leave as many
tables as it found: tables without a user key in common, each as large as an output, come
out of a round as they went in.

What a round leaves depends on the entries of its tables only, not on their numbers, and
there are finitely many ways to lay the entries out. So the rounds go on forever exactly if
they come back to a layout they had.

* `mergeRound_ok`: a round over sorted tables succeeds.
* `mergeRound_layout`: what it leaves depends on the layout.
* `merge_terminates_iff`: when the rounds end.
* `Full.merge_eq_none`: rounds over disjoint tables of one large entry each do not.
-/

namespace Ambar

namespace Repair

/-! ## Rounds succeed -/

/-- Tables as `read_table` leaves them: in order, with keys that parse. -/
structure Readable (tables : List Output) : Prop where
  sorted : ∀ t ∈ tables, Entry.Sorted t.entries
  parses : ∀ e ∈ entriesOf tables, (parseInternalKey e.key).isSome

section Success

variable (opts : Options) {dropDeletions : Bool} {newest : ℕ}

theorem PassInv.exists_step {done : List Entry} {st : PassState} {e : Entry}
    (h : PassInv dropDeletions newest done st)
    (hle : (done ++ [e]).Pairwise fun a b => a.key ≤ b.key) (hp : (parseInternalKey e.key).isSome) :
    ∃ st', st.mergeEntry opts dropDeletions e = .ok st' := by
  obtain ⟨parsed, hparsed⟩ := Option.isSome_iff_exists.mp hp
  have horder : (st.last.any fun l => decide (e.key < l.key)) = false := by
    rw [h.last]
    cases hg : done.getLast? with
    | none => rfl
    | some l =>
      have hl := (List.pairwise_append.mp hle).2.2 l (List.mem_of_getLast? hg) e (by simp)
      simpa using hl
  unfold PassState.mergeEntry
  simp only [hparsed, horder]
  exact ⟨_, rfl⟩

theorem PassInv.exists_run :
    ∀ {es done : List Entry} {st : PassState}, PassInv dropDeletions newest done st →
      (done ++ es).Pairwise (fun a b => a.key ≤ b.key) →
      (∀ e ∈ es, (parseInternalKey e.key).isSome) →
      ∃ st', es.foldlM (PassState.mergeEntry opts dropDeletions) st = .ok st' := by
  intro es
  induction es with
  | nil => exact fun _ _ _ => ⟨_, rfl⟩
  | cons e es ih =>
    intro done st h hle hp
    have hassoc : done ++ e :: es = done ++ [e] ++ es := by simp
    rw [hassoc] at hle
    have hle' := hle.sublist (List.sublist_append_left _ _)
    obtain ⟨st', hstep⟩ := h.exists_step opts hle' (hp e (by simp))
    obtain ⟨st'', hrun⟩ := ih (h.step hle' hstep) hle (fun x hx => hp x (List.mem_cons_of_mem _ hx))
    refine ⟨st'', ?_⟩
    rw [List.foldlM_cons, hstep]
    exact hrun

theorem mergePass_ok {inputs : List Output} (h : Readable inputs) (nextNumber : ℕ) :
    ∃ st, mergePass opts dropDeletions inputs nextNumber newest = .ok st := by
  obtain ⟨hperm, hle⟩ := mergeInput_spec h.sorted
  obtain ⟨st, hst⟩ : ∃ st, (mergeInput inputs).foldlM (PassState.mergeEntry opts dropDeletions)
      (.init nextNumber newest) = .ok st :=
    (passInv_init dropDeletions nextNumber newest).exists_run opts hle
      (fun e he => h.parses e (hperm.subset he))
  unfold mergePass
  rw [hst]
  exact ⟨_, rfl⟩

theorem Readable.subset {tables tables' : List Output} (h : Readable tables)
    (hsub : entriesOf tables' ⊆ entriesOf tables) (hs : ∀ t ∈ tables', Entry.Sorted t.entries) :
    Readable tables' :=
  ⟨hs, fun e he => h.parses e (hsub he)⟩

theorem mergeGroups_ok :
    ∀ (groups : List (List Output)) (m : Merged), (∀ g ∈ groups, Readable g) →
      ∃ m', groups.foldlM (mergeGroup opts) m = .ok m' := by
  intro groups
  induction groups with
  | nil => exact fun m _ => ⟨m, rfl⟩
  | cons g groups ih =>
    intro m hr
    obtain ⟨st, hst⟩ := @mergePass_ok opts false m.newest g (hr g (by simp)) m.nextNumber
    obtain ⟨m', hm'⟩ := ih ⟨m.tables ++ st.outputs, st.nextNumber, st.newest⟩
      (fun g' hg' => hr g' (List.mem_cons_of_mem _ hg'))
    refine ⟨m', ?_⟩
    rw [List.foldlM_cons, mergeGroup, hst]
    exact hm'

/-- A round over readable tables succeeds and leaves readable ones. -/
theorem mergeRound_ok {m : Merged} (h : Readable m.tables) :
    ∃ m', mergeRound opts m = .ok m' ∧ Readable m'.tables := by
  obtain ⟨m', hm'⟩ := mergeGroups_ok opts (groupsOf kMergeFanIn m.tables.length m.tables)
    ⟨[], m.nextNumber, m.newest⟩ fun g hg =>
      h.subset (entriesOf_mono (mem_groups hg)) fun t ht => h.sorted t (mem_groups hg ht)
  have hinv := mergeRound_inv h.sorted hm'
  have hsub := hinv.subperm.subset
  rw [groups_flatten] at hsub
  exact ⟨m', hm', h.subset hsub hinv.sorted⟩

end Success

/-! ## Rounds depend on the layout -/

/-- The entries of the tables. -/
def layout (tables : List Output) : List (List Entry) := tables.map (·.entries)

theorem layout_append (a b : List Output) : layout (a ++ b) = layout a ++ layout b := List.map_append

/-- Two passes that differ in numbers and notes. -/
structure SameLayout (st st' : PassState) : Prop where
  last : st.last = st'.last
  builder : st.builder.map (·.entries) = st'.builder.map (·.entries)
  outputs : layout st.outputs = layout st'.outputs

namespace SameLayout

variable {st st' : PassState} (h : SameLayout st st')

include h

theorem finish : SameLayout st.finish st'.finish where
  last := h.last
  builder := rfl
  outputs := by
    have htoList : layout st.builder.toList = layout st'.builder.toList := by
      have := h.builder
      cases hb : st.builder <;> cases hb' : st'.builder <;> simp_all [layout]
    show layout (st.outputs ++ _) = layout (st'.outputs ++ _)
    rw [layout_append, layout_append, htoList, h.outputs]

theorem append (e : Entry) : SameLayout (st.append e) (st'.append e) := by
  obtain ⟨-, hlast, houtputs, hbuilder⟩ := st.append_frame e
  obtain ⟨-, hlast', houtputs', hbuilder'⟩ := st'.append_frame e
  refine ⟨?_, ?_, ?_⟩
  · rw [hlast, hlast', h.last]
  · rw [hbuilder, hbuilder', h.builder]
  · rw [houtputs, houtputs', h.outputs]

theorem keep (opts : Options) (e : Entry) : SameLayout (st.keep opts e) (st'.keep opts e) := by
  have happend := h.append e
  unfold PassState.keep
  dsimp only
  rw [happend.builder]
  split_ifs
  · exact happend.finish
  · exact happend

theorem mergeEntry {opts : Options} {dropDeletions : Bool} {e : Entry} {a : PassState}
    (hstep : st.mergeEntry opts dropDeletions e = .ok a) :
    ∃ b, st'.mergeEntry opts dropDeletions e = .ok b ∧ SameLayout a b := by
  unfold PassState.mergeEntry at hstep ⊢
  cases hparse : parseInternalKey e.key with
  | none => simp [hparse] at hstep
  | some parsed =>
    have hnote : SameLayout (st.note parsed e) (st'.note parsed e) := ⟨h.last, h.builder, h.outputs⟩
    simp only [hparse, ← h.last] at hstep ⊢
    split_ifs at hstep ⊢
    · obtain rfl := Except.ok.inj hstep
      have hkeep := hnote.keep opts e
      exact ⟨_, rfl, rfl, hkeep.builder, hkeep.outputs⟩
    · obtain rfl := Except.ok.inj hstep
      exact ⟨_, rfl, rfl, hnote.builder, hnote.outputs⟩

end SameLayout

section Layout

variable {opts : Options}

theorem SameLayout.run {dropDeletions : Bool} :
    ∀ {es : List Entry} {st st' a : PassState}, SameLayout st st' →
      es.foldlM (PassState.mergeEntry opts dropDeletions) st = .ok a →
      ∃ b, es.foldlM (PassState.mergeEntry opts dropDeletions) st' = .ok b ∧ SameLayout a b := by
  intro es
  induction es with
  | nil =>
    intro st st' a h hrun
    obtain rfl := Except.ok.inj hrun
    exact ⟨st', rfl, h⟩
  | cons e es ih =>
    intro st st' a h hrun
    rw [List.foldlM_cons] at hrun
    cases hentry : st.mergeEntry opts dropDeletions e with
    | error status =>
      rw [hentry] at hrun
      exact nomatch hrun
    | ok st₁ =>
      rw [hentry] at hrun
      obtain ⟨st₁', hentry', hsame⟩ := h.mergeEntry hentry
      obtain ⟨b, hb, hab⟩ := ih hsame hrun
      refine ⟨b, ?_, hab⟩
      rw [List.foldlM_cons, hentry']
      exact hb

theorem mergeInput_layout {inputs inputs' : List Output} (h : layout inputs = layout inputs') :
    mergeInput inputs = mergeInput inputs' := by
  have hstart : ∀ tables : List Output, (tables.map fun t => Lib.ListPos.new t.entries) =
      (layout tables).map Lib.ListPos.new := fun tables => by
    rw [layout, List.map_map]
    rfl
  have hentries : ∀ tables : List Output, tables.flatMap (·.entries) = (layout tables).flatten :=
    fun tables => List.flatMap_def ..
  unfold mergeInput
  rw [hstart, hstart, hentries, hentries, h]

theorem mergePass_layout {dropDeletions : Bool} {inputs inputs' : List Output} {n n' k k' : ℕ}
    {a : PassState} (h : layout inputs = layout inputs')
    (hpass : mergePass opts dropDeletions inputs n k = .ok a) :
    ∃ b, mergePass opts dropDeletions inputs' n' k' = .ok b ∧ layout a.outputs = layout b.outputs := by
  unfold mergePass at hpass ⊢
  rw [← mergeInput_layout h]
  cases hrun : (mergeInput inputs).foldlM (PassState.mergeEntry opts dropDeletions) (.init n k) with
  | error status =>
    rw [hrun] at hpass
    exact nomatch hpass
  | ok st =>
    rw [hrun] at hpass
    obtain rfl := Except.ok.inj hpass
    have hinit : SameLayout (.init n k) (.init n' k') := ⟨rfl, rfl, rfl⟩
    obtain ⟨b, hb, hsame⟩ := hinit.run hrun
    rw [hb]
    exact ⟨b.finish, rfl, hsame.finish.outputs⟩

theorem groupsOf_map {α β : Type*} (f : α → β) (n : ℕ) :
    ∀ (fuel : ℕ) (l : List α), groupsOf n fuel (l.map f) = (groupsOf n fuel l).map (List.map f) := by
  intro fuel
  induction fuel with
  | zero => exact fun _ => rfl
  | succ fuel ih =>
    intro l
    cases l with
    | nil => rfl
    | cons a l =>
      show ((a :: l).map f).take n :: groupsOf n fuel (((a :: l).map f).drop n) = _
      rw [← List.map_take, ← List.map_drop, ih]
      rfl

theorem mergeGroups_layout :
    ∀ {groups groups' : List (List Output)} {m m' a : Merged},
      groups.map layout = groups'.map layout → layout m.tables = layout m'.tables →
      groups.foldlM (mergeGroup opts) m = .ok a →
      ∃ b, groups'.foldlM (mergeGroup opts) m' = .ok b ∧ layout a.tables = layout b.tables := by
  intro groups
  induction groups with
  | nil =>
    intro groups' m m' a hgroups hm hrun
    obtain rfl := Except.ok.inj hrun
    rw [List.map_nil, eq_comm, List.map_eq_nil_iff] at hgroups
    subst hgroups
    exact ⟨m', rfl, hm⟩
  | cons g groups ih =>
    intro groups' m m' a hgroups hm hrun
    cases groups' with
    | nil => exact nomatch hgroups
    | cons g' groups' =>
      obtain ⟨hg, hgroups⟩ := List.cons.inj hgroups
      rw [List.foldlM_cons, mergeGroup] at hrun
      cases hpass : mergePass opts false g m.nextNumber m.newest with
      | error status =>
        rw [hpass] at hrun
        exact nomatch hrun
      | ok st =>
        rw [hpass] at hrun
        obtain ⟨st', hst', hsame⟩ := mergePass_layout hg hpass
        have htables : layout (m.tables ++ st.outputs) = layout (m'.tables ++ st'.outputs) := by
          rw [layout_append, layout_append, hm, hsame]
        obtain ⟨b, hb, hab⟩ := @ih groups' ⟨m.tables ++ st.outputs, st.nextNumber, st.newest⟩
          ⟨m'.tables ++ st'.outputs, st'.nextNumber, st'.newest⟩ a hgroups htables hrun
        refine ⟨b, ?_, hab⟩
        rw [List.foldlM_cons, mergeGroup, hst']
        exact hb

/-- The layout a round leaves depends on the layout it finds. -/
theorem mergeRound_layout {m m' a : Merged} (h : layout m.tables = layout m'.tables)
    (hround : mergeRound opts m = .ok a) :
    ∃ b, mergeRound opts m' = .ok b ∧ layout a.tables = layout b.tables := by
  have hlen : m.tables.length = m'.tables.length := by
    have := congrArg List.length h
    simpa [layout] using this
  have hgroups : (groupsOf kMergeFanIn m.tables.length m.tables).map layout =
      (groupsOf kMergeFanIn m'.tables.length m'.tables).map layout := by
    rw [hlen]
    unfold layout at *
    rw [← groupsOf_map, ← groupsOf_map, h]
  exact @mergeGroups_layout opts _ _ ⟨[], m.nextNumber, m.newest⟩ ⟨[], m'.nextNumber, m'.newest⟩ a
    hgroups rfl hround

end Layout

/-! ## Finitely many layouts -/

section Bounds

variable {opts : Options}

/-- The tables among which a merge moves: no more than at the start, of its entries. -/
structure Bounded (n : ℕ) (es : List Entry) (tables : List Output) : Prop where
  readable : Readable tables
  subset : entriesOf tables ⊆ es
  entries_le : (entriesOf tables).length ≤ n
  tables_le : tables.length ≤ n

theorem length_le_entriesOf {tables : List Output} (h : ∀ t ∈ tables, t.entries ≠ []) :
    tables.length ≤ (entriesOf tables).length := by
  induction tables with
  | nil => exact Nat.zero_le _
  | cons t tables ih =>
    have hpos := List.length_pos_iff.mpr (h t (by simp))
    have hrest := ih fun t' ht' => h t' (List.mem_cons_of_mem _ ht')
    show tables.length + 1 ≤ (t.entries ++ entriesOf tables).length
    rw [List.length_append]
    omega

theorem Bounded.round {n : ℕ} {es : List Entry} {m m' : Merged} (h : Bounded n es m.tables)
    (hround : mergeRound opts m = .ok m') : Bounded n es m'.tables := by
  have hinv := mergeRound_inv h.readable.sorted hround
  have hsubperm := hinv.subperm
  rw [groups_flatten] at hsubperm
  have hlen : (entriesOf m'.tables).length ≤ n := hsubperm.length_le.trans h.entries_le
  exact ⟨h.readable.subset hsubperm.subset hinv.sorted, fun e he => h.subset (hsubperm.subset he), hlen,
    (length_le_entriesOf hinv.nonempty).trans hlen⟩

/-- The layouts of such tables are finitely many. -/
theorem Bounded.mem_layouts {n : ℕ} {es : List Entry} {tables : List Output} (h : Bounded n es tables) :
    layout tables ∈ {l : List (List Entry) | l.length ≤ n ∧
      ∀ t ∈ l, t ∈ {t : List Entry | t.length ≤ n ∧ ∀ e ∈ t, e ∈ {e | e ∈ es}}} := by
  refine ⟨by simpa [layout] using h.tables_le, fun t ht => ?_⟩
  obtain ⟨o, ho, rfl⟩ := List.mem_map.mp ht
  have hsub : o.entries.Sublist (entriesOf tables) := by
    rw [entriesOf, List.flatMap_def]
    exact List.sublist_flatten_of_mem (List.mem_map_of_mem ho)
  exact ⟨hsub.length_le.trans h.entries_le, fun e he => h.subset (hsub.subset he)⟩

end Bounds

/-! ## When the rounds end -/

/-- The tables after a round, where it succeeds. -/
def roundOf (opts : Options) (m : Merged) : Merged :=
  match mergeRound opts m with
  | .ok m' => m'
  | .error _ => m

/-- The layout after some rounds. -/
def layoutAfter (opts : Options) (m : Merged) (n : ℕ) : List (List Entry) :=
  layout (((roundOf opts)^[n]) m).tables

section Termination

variable {opts : Options}

theorem roundOf_eq {m m' : Merged} (h : mergeRound opts m = .ok m') : roundOf opts m = m' := by
  rw [roundOf, h]

/-- `merge` is still busy after `n` rounds if none of them left few enough tables. -/
theorem merge_eq_none_iff :
    ∀ {n : ℕ} {m : Merged}, Readable m.tables →
      (merge opts n m = none ↔ ∀ k ≤ n, kMergeFanIn < (layoutAfter opts m k).length) := by
  intro n
  induction n with
  | zero =>
    intro m _
    unfold merge
    simp only [Nat.le_zero, forall_eq, layoutAfter, Function.iterate_zero, id, layout, List.length_map]
    split_ifs with hfew
    · simp [hfew]
    · simpa using hfew
  | succ n ih =>
    intro m hr
    obtain ⟨m', hround, hr'⟩ := mergeRound_ok opts hr
    have hshift : ∀ k, layoutAfter opts m (k + 1) = layoutAfter opts m' k := fun k => by
      rw [layoutAfter, Function.iterate_succ_apply, roundOf_eq hround]
      rfl
    have hzero : (layoutAfter opts m 0).length = m.tables.length := by simp [layoutAfter, layout]
    unfold merge
    split_ifs with hfew
    · refine iff_of_false (by simp) fun hall => ?_
      have := hall 0 (Nat.zero_le _)
      omega
    · simp only [hround]
      rw [ih hr']
      constructor
      · intro hall k hk
        cases k with
        | zero => omega
        | succ k => exact hshift k ▸ hall k (Nat.le_of_succ_le_succ hk)
      · intro hall k hk
        exact hshift k ▸ hall (k + 1) (Nat.succ_le_succ hk)

theorem Bounded.iterate {n : ℕ} {es : List Entry} {m : Merged} (h : Bounded n es m.tables) :
    ∀ k, Bounded n es (((roundOf opts)^[k]) m).tables := by
  intro k
  induction k with
  | zero => exact h
  | succ k ih =>
    obtain ⟨m', hround, -⟩ := mergeRound_ok opts ih.readable
    rw [Function.iterate_succ_apply', roundOf_eq hround]
    exact ih.round hround

end Termination

/-! ## Tables that come out as they went in -/

/-- Tables of one entry each, as large as an output has to be, and in the order of their
    user keys. -/
def Full (opts : Options) (tables : List Output) : Prop :=
  ∃ es : List Entry, layout tables = es.map (fun e => [e]) ∧
    es.Pairwise (fun a b => a.userKey < b.userKey) ∧
    ∀ e ∈ es, (parseInternalKey e.key).isSome ∧ opts.maxFileSize ≤ opts.builderSize [e]

section Full

variable {opts : Options}

theorem Full.sublist {tables tables' : List Output} (h : Full opts tables)
    (hsub : tables'.Sublist tables) : Full opts tables' := by
  obtain ⟨es, hlayout, hinc, hfull⟩ := h
  have hsub' : (layout tables').Sublist (es.map fun e => [e]) := hlayout ▸ hsub.map _
  obtain ⟨es', hes', heq⟩ := List.sublist_map_iff.mp hsub'
  exact ⟨es', heq, hinc.sublist hes', fun e he => hfull e (hes'.subset he)⟩

theorem Full.congr {tables tables' : List Output} (h : Full opts tables)
    (heq : layout tables' = layout tables) : Full opts tables' := by
  obtain ⟨es, hlayout, hrest⟩ := h
  exact ⟨es, heq.trans hlayout, hrest⟩

/-- Every entry is a table of its own again. -/
theorem run_full :
    ∀ {es : List Entry} {st : PassState}, st.builder = none →
      es.Pairwise (fun a b => a.userKey < b.userKey) →
      (∀ e ∈ es, (parseInternalKey e.key).isSome ∧ opts.maxFileSize ≤ opts.builderSize [e]) →
      (∀ l ∈ st.last, ∀ e ∈ es, l.userKey < e.userKey ∧ l.key < e.key) →
      ∃ st', es.foldlM (PassState.mergeEntry opts false) st = .ok st' ∧ st'.builder = none ∧
        layout st'.outputs = layout st.outputs ++ es.map fun e => [e] := by
  intro es
  induction es with
  | nil => exact fun hb _ _ _ => ⟨_, rfl, hb, (List.append_nil _).symm⟩
  | cons e es ih =>
    intro st hb hinc hfull hlast
    obtain ⟨hhead, hinc⟩ := List.pairwise_cons.mp hinc
    obtain ⟨hparse, hsize⟩ := hfull e (by simp)
    obtain ⟨parsed, hparsed⟩ := Option.isSome_iff_exists.mp hparse
    obtain ⟨huser, -, -, -⟩ := parse_type hparsed
    have horder : (st.last.any fun l => decide (e.key < l.key)) = false := by
      cases hl : st.last with
      | none => rfl
      | some l => simpa using (hlast l hl e (by simp)).2.le
    have hnew : (st.last.all fun l => decide (parsed.userKey ≠ l.userKey)) = true := by
      cases hl : st.last with
      | none => rfl
      | some l => simpa [huser] using (hlast l hl e (by simp)).1.ne'
    have hkeep : (st.note parsed e).keep opts e =
        { st.note parsed e with
          outputs := st.outputs ++ [⟨st.nextNumber, e.key, e.key, [e]⟩]
          nextNumber := st.nextNumber + 1
          builder := none } := by
      unfold PassState.keep PassState.append
      simp only [show (st.note parsed e).builder = none from hb, Option.map_some, Option.getD_some]
      rw [if_pos hsize]
      rfl
    have hstep : st.mergeEntry opts false e =
        .ok { (st.note parsed e).keep opts e with last := some ⟨e.key, parsed.userKey, e.value⟩ } := by
      unfold PassState.mergeEntry
      simp only [hparsed, horder, hnew]
      rfl
    rw [hkeep] at hstep
    have hnext := @ih { st.note parsed e with
        outputs := st.outputs ++ [⟨st.nextNumber, e.key, e.key, [e]⟩]
        nextNumber := st.nextNumber + 1
        builder := none
        last := some ⟨e.key, parsed.userKey, e.value⟩ } rfl hinc
      (fun x hx => hfull x (List.mem_cons_of_mem _ hx))
      (fun l hl x hx => by
        obtain rfl := Option.some.inj hl
        exact ⟨huser ▸ hhead x hx, InternalKey.lt_of_userKey_lt (hhead x hx)⟩)
    obtain ⟨st', hrun, hbuilder, hlayout⟩ := hnext
    refine ⟨st', ?_, hbuilder, ?_⟩
    · rw [List.foldlM_cons, hstep]
      exact hrun
    · rw [hlayout, layout_append]
      simp [layout]

theorem Full.pass {tables : List Output} (h : Full opts tables) (nextNumber newest : ℕ) :
    ∃ st, mergePass opts false tables nextNumber newest = .ok st ∧ layout st.outputs = layout tables := by
  obtain ⟨es, hlayout, hinc, hfull⟩ := h
  have hentries : entriesOf tables = es := by
    rw [entriesOf, List.flatMap_def]
    show (layout tables).flatten = es
    rw [hlayout, ← List.flatMap_def, List.flatMap_singleton']
  have hsorted : ∀ t ∈ tables, Entry.Sorted t.entries := fun t ht => by
    have hmem : t.entries ∈ layout tables := List.mem_map_of_mem ht
    rw [hlayout] at hmem
    obtain ⟨e, -, heq⟩ := List.mem_map.mp hmem
    rw [← heq]
    exact List.pairwise_singleton _ _
  obtain ⟨hperm, hle⟩ := mergeInput_spec hsorted
  have hinput : mergeInput tables = es := by
    rw [hentries] at hperm
    have hlt : es.Pairwise fun a b => a.key < b.key := hinc.imp InternalKey.lt_of_userKey_lt
    have hnodup : (es.map Entry.key).Nodup := List.pairwise_map.mpr (hlt.imp fun h => h.ne)
    exact hperm.eq_of_pairwise (fun a b ha hb hab hba =>
      List.inj_on_of_nodup_map hnodup (hperm.subset ha) hb (le_antisymm hab hba)) hle
      (hlt.imp fun h => h.le)
  obtain ⟨st, hrun, hbuilder, hout⟩ := @run_full opts es (.init nextNumber newest) rfl hinc hfull
    (fun _ hl => by cases hl)
  refine ⟨st.finish, ?_, ?_⟩
  · unfold mergePass
    rw [hinput, hrun]
    rfl
  · rw [PassState.finish, hbuilder, hlayout]
    show layout (st.outputs ++ []) = _
    rw [List.append_nil]
    exact hout

theorem mergeGroups_full :
    ∀ {groups : List (List Output)} {m : Merged}, (∀ g ∈ groups, Full opts g) →
      ∃ m', groups.foldlM (mergeGroup opts) m = .ok m' ∧
        layout m'.tables = layout (m.tables ++ groups.flatten) := by
  intro groups
  induction groups with
  | nil => exact fun _ => ⟨_, rfl, by rw [List.flatten_nil, List.append_nil]⟩
  | cons g groups ih =>
    intro m hfull
    obtain ⟨st, hpass, hlayout⟩ := (hfull g (by simp)).pass m.nextNumber m.newest
    obtain ⟨m', hrun, hm'⟩ := @ih ⟨m.tables ++ st.outputs, st.nextNumber, st.newest⟩
      fun g' hg' => hfull g' (List.mem_cons_of_mem _ hg')
    refine ⟨m', ?_, ?_⟩
    · rw [List.foldlM_cons, mergeGroup, hpass]
      exact hrun
    · rw [hm', List.flatten_cons]
      simp only [layout_append, hlayout, List.append_assoc]

theorem Full.round {m : Merged} (h : Full opts m.tables) :
    ∃ m', mergeRound opts m = .ok m' ∧ layout m'.tables = layout m.tables := by
  obtain ⟨m', hround, hlayout⟩ := @mergeGroups_full opts (groupsOf kMergeFanIn m.tables.length m.tables)
    ⟨[], m.nextNumber, m.newest⟩ fun g hg => h.sublist (by
      have hsub := List.sublist_flatten_of_mem hg
      rwa [groups_flatten] at hsub)
  rw [groups_flatten] at hlayout
  exact ⟨m', hround, hlayout⟩

/-- Too many such tables are never merged. -/
theorem Full.merge_eq_none :
    ∀ {n : ℕ} {m : Merged}, Full opts m.tables → kMergeFanIn < m.tables.length →
      merge opts n m = none := by
  intro n
  induction n with
  | zero =>
    intro m _ hmany
    unfold merge
    rw [if_neg (by omega)]
  | succ n ih =>
    intro m h hmany
    obtain ⟨m', hround, hlayout⟩ := h.round
    have hlen : m'.tables.length = m.tables.length := by
      simpa [layout] using congrArg List.length hlayout
    unfold merge
    rw [if_neg (by omega)]
    simp only [hround]
    exact ih (h.congr hlayout) (by omega)

/-- The entry of the `i`-th of the tables below, with a value of `size` bytes. -/
def largeEntry (size i : ℕ) : Entry :=
  ⟨makeInternalKey (List.replicate i 97) (i + 1) .value, List.replicate size 0⟩

/-- Tables that share no key, each of one entry. -/
def largeTables (size n : ℕ) : List Output :=
  (List.range n).map fun i =>
    ⟨i + 1, (largeEntry size i).key, (largeEntry size i).key, [largeEntry size i]⟩

/-- The bytes of the values, which no compression makes fewer. -/
def valueBytes (es : List Entry) : ℕ := (es.map fun e => e.value.length).sum

theorem largeEntry_lt {size i j : ℕ} (h : i < j) :
    (largeEntry size i).userKey < (largeEntry size j).userKey := by
  show List.replicate i 97 < List.replicate j 97
  obtain ⟨k, rfl⟩ := Nat.exists_eq_add_of_lt h
  rw [Nat.add_assoc, List.replicate_add]
  generalize List.replicate i (97 : UInt8) = l
  induction l with
  | nil => exact List.nil_lt_cons _ _
  | cons a l ih => exact List.cons_lt_cons_self.mpr ih

theorem largeTables_full (size n : ℕ) : Full ⟨size, valueBytes, valueBytes⟩ (largeTables size n) := by
  refine ⟨(List.range n).map (largeEntry size), ?_, ?_, fun e he => ?_⟩
  · simp [layout, largeTables]
  · exact List.pairwise_map.mpr (List.pairwise_lt_range.imp largeEntry_lt)
  · obtain ⟨i, -, rfl⟩ := List.mem_map.mp he
    refine ⟨by rw [largeEntry, parseInternalKey_make]; rfl, ?_⟩
    show size ≤ (List.replicate size 0).length + 0
    rw [List.length_replicate]
    exact le_rfl

end Full

end Repair

end Ambar
