import Ambar.Compaction.Work

/-!
# The merge of a repair

Model of `merge_pass` and `merge` (`src/repair.cpp`, lines 259–428). A pass takes up to
`kMergeFanIn` tables, whatever their ranges and numbers, and writes every user key once, at
its newest version; while there are more tables than that, a round passes over them group by
group, and only the pass over what is left drops deletions. A table is written to a file
that is cut once it has `max_file_size` bytes.

The tables are here with their entries, as `read_table` found them. `merge` is given a
number of rounds; it has no result where they do not suffice.

* `PassInv.step`: what one entry changes.
* `mergePass_spec`: a pass keeps the newest version of every user key.
* `Refines`: what a round leaves of its tables has the newest versions of all of them.
* `merge_newest`: whatever the rounds, the outputs have the newest versions that are values.
-/

namespace Ambar

namespace Repair

/-- `kMergeFanIn` (line 66). -/
def kMergeFanIn : ℕ := 256

/-! ## One pass -/

/-- `last_emitted`, `last_user_key` and `last_value`, once `has_last` is set. -/
structure LastEmitted where
  key : InternalKey
  userKey : Bytes
  value : Bytes

/-- The local variables of `merge_pass`: `builder` is the open output, `outputs` are the
    finished ones, and `disagreements` are the user keys of the notes it makes, cut at forty
    bytes. -/
structure PassState where
  last : Option LastEmitted
  builder : Option Output
  outputs : List Output
  nextNumber : ℕ
  newest : ℕ
  disagreements : List Bytes

namespace PassState

def init (nextNumber newest : ℕ) : PassState := ⟨none, none, [], nextNumber, newest, []⟩

/-- `finish_output` (lines 288–304). -/
def finish (st : PassState) : PassState :=
  { st with outputs := st.outputs ++ st.builder.toList, builder := none }

/-- The outputs, the open one last. -/
def all (st : PassState) : List Output := st.outputs ++ st.builder.toList

/-- An entry is added to the open output (lines 361–372), which is opened if there is none. -/
def append (st : PassState) (e : Entry) : PassState :=
  match st.builder with
  | none => { st with
      builder := some ⟨st.nextNumber, e.key, e.key, [e]⟩
      nextNumber := st.nextNumber + 1 }
  | some o => { st with builder := some { o with largest := e.key, entries := o.entries ++ [e] } }

/-- A kept entry (lines 360–377): the output is cut once it is large enough. -/
def keep (opts : Options) (st : PassState) (e : Entry) : PassState :=
  let st := st.append e
  if opts.maxFileSize ≤ opts.builderSize ((st.builder.map (·.entries)).getD []) then st.finish
  else st

/-- What is noted of an entry before it is kept or not (lines 338, 343–354). -/
def note (st : PassState) (parsed : ParsedInternalKey) (e : Entry) : PassState :=
  { st with
    newest := max st.newest parsed.sequence
    disagreements :=
      if st.last.any fun l => l.key = e.key ∧ e.value ≠ l.value then
        st.disagreements ++ [parsed.userKey.take 40]
      else st.disagreements }

/-- One turn of the loop (lines 333–381). -/
def mergeEntry (opts : Options) (dropDeletions : Bool) (st : PassState) (e : Entry) :
    Except Status PassState :=
  match parseInternalKey e.key with
  | none => .error (.corruption "a key that read once would not read twice")
  | some parsed =>
    if st.last.any fun l => e.key < l.key then .error (.corruption "inputs are not in order")
    else
      let newestVersion := st.last.all fun l => parsed.userKey ≠ l.userKey
      let keep := !(dropDeletions && decide (parsed.type = .deletion))
      let st := st.note parsed e
      let st := if newestVersion && keep then st.keep opts e else st
      .ok { st with last := some ⟨e.key, parsed.userKey, e.value⟩ }

end PassState

/-- The entries in the order in which the loop of `merge_pass` takes them: always of the
    first child with the smallest key. -/
def mergeInput (inputs : List Output) : List Entry :=
  (Lib.mergeCursor Entry.key (Lib.listCursor Entry.key)).drain (inputs.flatMap (·.entries)).length
    ((Lib.mergeCursor Entry.key (Lib.listCursor Entry.key)).seekToFirst
      ⟨inputs.map fun t => Lib.ListPos.new t.entries, none, .forward⟩)

/-- `merge_pass` (lines 264–390). -/
def mergePass (opts : Options) (dropDeletions : Bool) (inputs : List Output)
    (nextNumber newest : ℕ) : Except Status PassState :=
  ((mergeInput inputs).foldlM (PassState.mergeEntry opts dropDeletions)
    (.init nextNumber newest)).map PassState.finish

/-! ## The rounds -/

/-- The tables in groups of `n`. -/
def groupsOf {α : Type*} (n : ℕ) : ℕ → List α → List (List α)
  | 0, _ => []
  | _ + 1, [] => []
  | fuel + 1, l => l.take n :: groupsOf n fuel (l.drop n)

/-- What a merge has: tables, the next number and the newest sequence. -/
structure Merged where
  tables : List Output
  nextNumber : ℕ
  newest : ℕ

/-- A pass over a group of a round (lines 405–416). -/
def mergeGroup (opts : Options) (m : Merged) (group : List Output) : Except Status Merged :=
  (mergePass opts false group m.nextNumber m.newest).map fun st =>
    ⟨m.tables ++ st.outputs, st.nextNumber, st.newest⟩

/-- One round (lines 403–422). -/
def mergeRound (opts : Options) (m : Merged) : Except Status Merged :=
  (groupsOf kMergeFanIn m.tables.length m.tables).foldlM (mergeGroup opts)
    ⟨[], m.nextNumber, m.newest⟩

/-- `merge` (lines 397–428), for a number of rounds. -/
def merge (opts : Options) : ℕ → Merged → Option (Except Status Merged)
  | rounds, m =>
    if m.tables.length ≤ kMergeFanIn then
      some ((mergePass opts true m.tables m.nextNumber m.newest).map fun st =>
        ⟨st.outputs, st.nextNumber, st.newest⟩)
    else
      match rounds with
      | 0 => none
      | rounds + 1 =>
        match mergeRound opts m with
        | .error status => some (.error status)
        | .ok m => merge opts rounds m

/-! ## What a pass keeps -/

/-- The largest sequence of a list, zero for an empty one. -/
def maxSequence (es : List Entry) : ℕ := es.foldr (fun e n => max e.sequence n) 0

theorem maxSequence_append (a b : List Entry) :
    maxSequence (a ++ b) = max (maxSequence a) (maxSequence b) := by
  induction a with
  | nil => exact (Nat.zero_max _).symm
  | cons e a ih =>
    show max e.sequence (maxSequence (a ++ b)) = max (max e.sequence (maxSequence a)) _
    rw [ih, max_assoc]

theorem maxSequence_le_iff {es : List Entry} {n : ℕ} :
    maxSequence es ≤ n ↔ ∀ e ∈ es, e.sequence ≤ n := by
  induction es with
  | nil => simp [maxSequence]
  | cons e es ih =>
    show max e.sequence (maxSequence es) ≤ n ↔ _
    rw [max_le_iff, ih, List.forall_mem_cons]

theorem maxSequence_mono {a b : List Entry} (h : a ⊆ b) : maxSequence a ≤ maxSequence b :=
  maxSequence_le_iff.mpr fun e he => maxSequence_le_iff.mp le_rfl e (h he)

/-- The first entry of its user key in internal-key order. -/
def IsFirst (es : List Entry) (e : Entry) : Prop :=
  e ∈ es ∧ ∀ p ∈ es, p.userKey = e.userKey → e.key ≤ p.key

/-- The entries can be told apart by their keys. -/
def KeysDiffer (es : List Entry) : Prop := ∀ a ∈ es, ∀ b ∈ es, a.key = b.key → a = b

theorem KeysDiffer.subset {es es' : List Entry} (h : KeysDiffer es) (hsub : es' ⊆ es) :
    KeysDiffer es' := fun a ha b hb => h a (hsub ha) b (hsub hb)

/-- The loop of a pass after the entries `done`. Which of two entries with one key is kept is
    only said where they do not differ. -/
structure PassInv (dropDeletions : Bool) (newest : ℕ) (done : List Entry) (st : PassState) :
    Prop where
  last : st.last = done.getLast?.map fun e => ⟨e.key, e.userKey, e.value⟩
  newest : st.newest = max newest (maxSequence done)
  parses : ∀ e ∈ done, (parseInternalKey e.key).isSome
  sublist : (st.all.flatMap (·.entries)).Sublist done
  kept : KeysDiffer done → ∀ e, e ∈ st.all.flatMap (·.entries) ↔
    IsFirst done e ∧ ¬ (dropDeletions = true ∧ e.key.typeByte = 0)
  increasing : (st.all.flatMap (·.entries)).Pairwise fun a b => a.userKey < b.userKey
  outputs : ∀ o ∈ st.all, OutputOk o

theorem passInv_init (dropDeletions : Bool) (nextNumber newest : ℕ) :
    PassInv dropDeletions newest [] (.init nextNumber newest) where
  last := rfl
  newest := (Nat.max_zero _).symm
  parses := nofun
  sublist := List.nil_sublist _
  kept := fun _ e => iff_of_false List.not_mem_nil fun h => List.not_mem_nil h.1.1
  increasing := .nil
  outputs := nofun

@[simp] theorem PassState.finish_all (st : PassState) : st.finish.all = st.all := by
  simp [PassState.finish, PassState.all]

/-- The open output after an entry was added. -/
theorem PassState.append_spec (st : PassState) (e : Entry) (hok : ∀ o ∈ st.all, OutputOk o) :
    (st.append e).all.flatMap (·.entries) = st.all.flatMap (·.entries) ++ [e] ∧
    ∀ o ∈ (st.append e).all, OutputOk o := by
  unfold PassState.append
  cases hb : st.builder with
  | none =>
    refine ⟨by simp [PassState.all, hb], fun o ho => ?_⟩
    rcases List.mem_append.mp ho with ho | ho
    · exact hok o (List.mem_append_left _ ho)
    · rw [List.mem_singleton.mp ho]
      exact ⟨rfl, rfl⟩
  | some o' =>
    refine ⟨by simp [PassState.all, hb], fun o ho => ?_⟩
    rcases List.mem_append.mp ho with ho | ho
    · exact hok o (List.mem_append_left _ ho)
    · rw [List.mem_singleton.mp ho]
      exact (hok o' (by simp [PassState.all, hb])).extend e

theorem PassState.append_frame (st : PassState) (e : Entry) :
    (st.append e).newest = st.newest ∧ (st.append e).last = st.last ∧
    (st.append e).outputs = st.outputs ∧
    (st.append e).builder.map (·.entries) = some ((st.builder.map (·.entries)).getD [] ++ [e]) := by
  unfold PassState.append
  cases st.builder <;> exact ⟨rfl, rfl, rfl, rfl⟩

/-- Keeping an entry appends it to the outputs. -/
theorem PassState.keep_spec (opts : Options) (st : PassState) (e : Entry)
    (hok : ∀ o ∈ st.all, OutputOk o) :
    (st.keep opts e).all.flatMap (·.entries) = st.all.flatMap (·.entries) ++ [e] ∧
    (∀ o ∈ (st.keep opts e).all, OutputOk o) ∧ (st.keep opts e).newest = st.newest := by
  obtain ⟨hentries, hok'⟩ := st.append_spec e hok
  have hnewest := (st.append_frame e).1
  unfold PassState.keep
  dsimp only
  split_ifs
  · rw [PassState.finish_all]
    exact ⟨hentries, hok', hnewest⟩
  · exact ⟨hentries, hok', hnewest⟩

theorem parse_type {k : InternalKey} {parsed : ParsedInternalKey}
    (h : parseInternalKey k = some parsed) :
    parsed.userKey = k.userKey ∧ parsed.sequence = k.sequence ∧
      (parsed.type = .deletion ↔ k.typeByte = 0) ∧ k.typeByte ≤ 1 := by
  unfold parseInternalKey at h
  split_ifs at h with h1 h0
  · cases h
    exact ⟨rfl, rfl, by simp [h1], h1.le⟩
  · cases h
    exact ⟨rfl, rfl, by simp [h0], h0.le.trans (Nat.zero_le 1)⟩

section Step

variable {opts : Options} {dropDeletions : Bool} {newest : ℕ} {done : List Entry} {st st' : PassState}
  {e : Entry}

/-- The entry is the first of its user key if the one before it has another. -/
theorem isFirst_append (hle : (done ++ [e]).Pairwise fun a b => a.key ≤ b.key)
    (hkeys : KeysDiffer (done ++ [e])) (x : Entry) :
    IsFirst (done ++ [e]) x ↔
      IsFirst done x ∨ x = e ∧ ∀ l ∈ done, l.userKey ≠ e.userKey := by
  obtain ⟨-, -, hlast⟩ := List.pairwise_append.mp hle
  have hbefore : ∀ p ∈ done, p.key ≤ e.key := fun p hp => hlast p hp e (List.mem_singleton_self e)
  constructor
  · intro ⟨hx, hfirst⟩
    rcases List.mem_append.mp hx with hx | hx
    · exact .inl ⟨hx, fun p hp => hfirst p (List.mem_append_left _ hp)⟩
    · obtain rfl := List.mem_singleton.mp hx
      by_cases hsome : ∃ l ∈ done, l.userKey = x.userKey
      · -- a copy of the entry came before
        obtain ⟨l, hl, hu⟩ := hsome
        have hkey := le_antisymm (hfirst l (List.mem_append_left _ hl) hu) (hbefore l hl)
        obtain rfl := hkeys x (by simp) l (by simp [hl]) hkey
        exact .inl ⟨hl, fun p hp => hfirst p (List.mem_append_left _ hp)⟩
      · exact .inr ⟨rfl, fun l hl hu => hsome ⟨l, hl, hu⟩⟩
  · rintro (⟨hx, hfirst⟩ | ⟨rfl, hnone⟩)
    · refine ⟨List.mem_append_left _ hx, fun p hp hu => ?_⟩
      rcases List.mem_append.mp hp with hp | hp
      · exact hfirst p hp hu
      · rw [List.mem_singleton.mp hp]
        exact hbefore x hx
    · refine ⟨by simp, fun p hp hu => ?_⟩
      rcases List.mem_append.mp hp with hp | hp
      · exact absurd hu (hnone p hp)
      · rw [List.mem_singleton.mp hp]

/-- Whether a user key is new can be told from the last entry. -/
theorem newUserKey_iff (hle : (done ++ [e]).Pairwise fun a b => a.key ≤ b.key) :
    (∀ l ∈ done, l.userKey ≠ e.userKey) ↔ ∀ l ∈ done.getLast?, l.userKey ≠ e.userKey := by
  obtain ⟨hdone, -, hlast⟩ := List.pairwise_append.mp hle
  constructor
  · intro h l hl
    exact h l (List.mem_of_getLast? hl)
  · intro h l hl heq
    cases hg : done.getLast? with
    | none =>
      rw [List.getLast?_eq_none_iff] at hg
      simp [hg] at hl
    | some p =>
      refine h p hg ?_
      have hpe := InternalKey.userKey_le_of_le (hlast p (List.mem_of_getLast? hg) e (by simp))
      have hlp : l.key ≤ p.key := by
        obtain ⟨init, rfl⟩ := List.getLast?_eq_some_iff.mp hg
        rcases List.mem_append.mp hl with hl | hl
        · exact (List.pairwise_append.mp hdone).2.2 l hl p (by simp)
        · rw [List.mem_singleton.mp hl]
      exact le_antisymm hpe (heq ▸ InternalKey.userKey_le_of_le hlp)

theorem PassInv.step (h : PassInv dropDeletions newest done st)
    (hle : (done ++ [e]).Pairwise fun a b => a.key ≤ b.key)
    (hstep : st.mergeEntry opts dropDeletions e = .ok st') :
    PassInv dropDeletions newest (done ++ [e]) st' := by
  unfold PassState.mergeEntry at hstep
  cases hparse : parseInternalKey e.key with
  | none => simp [hparse] at hstep
  | some parsed =>
    obtain ⟨huser, hseq, htype, -⟩ := parse_type hparse
    have hnew : (st.last.all fun l => decide (parsed.userKey ≠ l.userKey)) = true ↔
        ∀ l ∈ done, l.userKey ≠ e.userKey := by
      rw [newUserKey_iff hle, h.last, huser]
      cases done.getLast? with
      | none => simp
      | some l =>
        simp only [Option.map_some, Option.all_some, decide_eq_true_eq, Option.mem_some_iff,
          forall_eq']
        exact ne_comm
    have hdrop : (!(dropDeletions && decide (parsed.type = .deletion))) = true ↔
        ¬ (dropDeletions = true ∧ e.key.typeByte = 0) := by
      rw [← htype]
      cases dropDeletions <;> simp
    have hnewest : max (max newest (maxSequence done)) parsed.sequence =
        max newest (maxSequence (done ++ [e])) := by
      rw [maxSequence_append, hseq, max_assoc]
      exact congrArg (fun n => max newest (max (maxSequence done) n)) (Nat.max_zero _).symm
    have hparses : ∀ x ∈ done ++ [e], (parseInternalKey x.key).isSome := by
      intro x hx
      rcases List.mem_append.mp hx with hx | hx
      · exact h.parses x hx
      · rw [List.mem_singleton.mp hx, hparse]
        rfl
    have hlast : some ⟨e.key, parsed.userKey, e.value⟩ =
        ((done ++ [e]).getLast?.map fun e => (⟨e.key, e.userKey, e.value⟩ : LastEmitted)) := by
      rw [List.getLast?_concat, huser]
      rfl
    simp only [hparse] at hstep
    split_ifs at hstep with horder hboth
    · -- the entry is kept
      obtain ⟨hfresh, hkeep⟩ := Bool.and_eq_true_iff.mp hboth
      rw [hnew] at hfresh
      rw [hdrop] at hkeep
      obtain ⟨hentries, hok, hsame⟩ := (st.note parsed e).keep_spec opts e h.outputs
      obtain rfl := Except.ok.inj hstep
      refine ⟨hlast, ?_, hparses, ?_, fun hkeys x => ?_, ?_, hok⟩
      · show ((st.note parsed e).keep opts e).newest = _
        rw [hsame, ← hnewest, ← h.newest]
        rfl
      · show (((st.note parsed e).keep opts e).all.flatMap (·.entries)).Sublist _
        rw [hentries]
        exact h.sublist.append_right [e]
      · show x ∈ ((st.note parsed e).keep opts e).all.flatMap (·.entries) ↔ _
        rw [hentries, isFirst_append hle hkeys, List.mem_append, List.mem_singleton, or_and_right]
        refine or_congr (h.kept (hkeys.subset (List.subset_append_left _ _)) x) ⟨?_, fun hx => hx.1.1⟩
        rintro rfl
        exact ⟨⟨rfl, hfresh⟩, hkeep⟩
      · show (((st.note parsed e).keep opts e).all.flatMap (·.entries)).Pairwise _
        rw [hentries]
        refine List.pairwise_append.mpr ⟨h.increasing, List.pairwise_singleton _ _, fun a ha b hb => ?_⟩
        rw [List.mem_singleton.mp hb]
        have hin : a ∈ done := h.sublist.subset ha
        have hae := (List.pairwise_append.mp hle).2.2 a hin e (by simp)
        exact lt_of_le_of_ne (InternalKey.userKey_le_of_le hae) (hfresh a hin)
    · -- it is dropped: an older version, a copy, or a deletion
      obtain rfl := Except.ok.inj hstep
      refine ⟨hlast, ?_, hparses, h.sublist.trans (List.sublist_append_left _ _), fun hkeys x => ?_,
        h.increasing, h.outputs⟩
      · show max st.newest parsed.sequence = _
        rw [h.newest, hnewest]
      · rw [isFirst_append hle hkeys, or_and_right]
        refine (h.kept (hkeys.subset (List.subset_append_left _ _)) x).trans
          ⟨.inl, fun hx => hx.resolve_right ?_⟩
        rintro ⟨⟨rfl, hfresh⟩, hkeep⟩
        exact hboth (Bool.and_eq_true_iff.mpr ⟨hnew.mpr hfresh, hdrop.mpr hkeep⟩)

theorem PassInv.run :
    ∀ {es done : List Entry} {st st' : PassState}, PassInv dropDeletions newest done st →
      (done ++ es).Pairwise (fun a b => a.key ≤ b.key) →
      es.foldlM (PassState.mergeEntry opts dropDeletions) st = .ok st' →
      PassInv dropDeletions newest (done ++ es) st' := by
  intro es
  induction es with
  | nil =>
    intro done st st' h _ hrun
    obtain rfl := Except.ok.inj hrun
    rwa [List.append_nil]
  | cons e es ih =>
    intro done st st' h hle hrun
    have hassoc : done ++ e :: es = done ++ [e] ++ es := by simp
    rw [hassoc] at hle ⊢
    rw [List.foldlM_cons] at hrun
    cases hentry : st.mergeEntry opts dropDeletions e with
    | error status =>
      rw [hentry] at hrun
      exact nomatch hrun
    | ok st₁ =>
      rw [hentry] at hrun
      exact ih (h.step (hle.sublist (List.sublist_append_left _ _)) hentry) hle hrun

end Step

/-- The entries of some tables. -/
def entriesOf (tables : List Output) : List Entry := tables.flatMap (·.entries)

theorem mergeInput_spec {inputs : List Output} (hs : ∀ t ∈ inputs, Entry.Sorted t.entries) :
    (mergeInput inputs).Perm (entriesOf inputs) ∧
    (mergeInput inputs).Pairwise fun a b => a.key ≤ b.key := by
  obtain ⟨m, hy, hperm, hle⟩ := Lib.yields_merge Entry.key inputs
    (fun t => Lib.ListPos.new t.entries) (·.entries)
    (fun t _ => Lib.yields_listCursor_first Entry.key (Lib.ListPos.new t.entries))
    (fun t ht => (hs t ht).imp fun h => h.le)
  have heq : mergeInput inputs = m := Lib.Cursor.drain_eq hy hperm.length_eq.le
  rw [heq]
  exact ⟨hperm, hle⟩

theorem IsFirst.congr {a b : List Entry} (h : ∀ x, x ∈ a ↔ x ∈ b) (e : Entry) :
    IsFirst a e ↔ IsFirst b e := by
  unfold IsFirst
  simp only [h]

/-- A pass keeps the newest version of every user key, deletions too unless it drops them. -/
theorem mergePass_spec {opts : Options} {dropDeletions : Bool} {inputs : List Output}
    {nextNumber newest : ℕ} {st : PassState} (hs : ∀ t ∈ inputs, Entry.Sorted t.entries)
    (h : mergePass opts dropDeletions inputs nextNumber newest = .ok st) :
    (KeysDiffer (entriesOf inputs) → ∀ e, e ∈ entriesOf st.outputs ↔
      IsFirst (entriesOf inputs) e ∧ ¬ (dropDeletions = true ∧ e.key.typeByte = 0)) ∧
    (entriesOf st.outputs).Subperm (entriesOf inputs) ∧
    (entriesOf st.outputs).Pairwise (fun a b => a.userKey < b.userKey) ∧
    (∀ o ∈ st.outputs, OutputOk o) ∧ st.newest = max newest (maxSequence (entriesOf inputs)) ∧
    ∀ e ∈ entriesOf inputs, (parseInternalKey e.key).isSome := by
  obtain ⟨hperm, hle⟩ := mergeInput_spec hs
  unfold mergePass at h
  cases hrun : (mergeInput inputs).foldlM (PassState.mergeEntry opts dropDeletions)
      (.init nextNumber newest) with
  | error status =>
    rw [hrun] at h
    exact nomatch h
  | ok st' =>
    rw [hrun] at h
    obtain rfl : st'.finish = st := Except.ok.inj h
    have hinv : PassInv dropDeletions newest ([] ++ mergeInput inputs) st' :=
      (passInv_init dropDeletions nextNumber newest).run hle hrun
    rw [List.nil_append] at hinv
    have hmem : ∀ x, x ∈ mergeInput inputs ↔ x ∈ entriesOf inputs := fun x => hperm.mem_iff
    refine ⟨fun hkeys e => ?_, hinv.sublist.subperm.trans hperm.subperm, hinv.increasing, hinv.outputs,
      ?_, fun e he => ?_⟩
    · rw [← IsFirst.congr hmem]
      exact hinv.kept (hkeys.subset hperm.subset) e
    · exact hinv.newest.trans (congrArg (max newest)
        (le_antisymm (maxSequence_mono hperm.subset) (maxSequence_mono hperm.symm.subset)))
    · exact hinv.parses e ((hmem e).mpr he)

/-! ## What the rounds keep -/

theorem groupsOf_flatten {α : Type*} {n : ℕ} (hn : 0 < n) :
    ∀ {fuel : ℕ} {l : List α}, l.length ≤ fuel → (groupsOf n fuel l).flatten = l := by
  intro fuel
  induction fuel with
  | zero =>
    intro l hl
    rw [List.length_eq_zero_iff.mp (Nat.le_zero.mp hl)]
    rfl
  | succ fuel ih =>
    intro l hl
    cases l with
    | nil => rfl
    | cons a l =>
      show (a :: l).take n ++ (groupsOf n fuel ((a :: l).drop n)).flatten = a :: l
      rw [ih (by rw [List.length_drop, List.length_cons] at *; omega), List.take_append_drop]

theorem exists_isFirst {es : List Entry} {e : Entry} (he : e ∈ es) :
    ∃ f, IsFirst es f ∧ f.userKey = e.userKey := by
  have hfin : {x | x ∈ es ∧ x.userKey = e.userKey}.Finite :=
    (List.finite_toSet es).subset fun x hx => hx.1
  obtain ⟨f, ⟨hf, hu⟩, hmin⟩ := Set.exists_min_image _ Entry.key hfin ⟨e, he, rfl⟩
  exact ⟨f, ⟨hf, fun p hp hpu => hmin p ⟨hp, hpu.trans hu⟩⟩, hu⟩

/-- Of the entries `es` the entries `es'` are left, the newest versions among them. -/
structure Refines (es es' : List Entry) : Prop where
  subset : es' ⊆ es
  first : ∀ e, IsFirst es e → e ∈ es'

theorem Refines.isFirst_iff {es es' : List Entry} (h : Refines es es') (e : Entry) :
    IsFirst es' e ↔ IsFirst es e := by
  constructor
  · intro ⟨he, hfirst⟩
    refine ⟨h.subset he, fun p hp hu => ?_⟩
    obtain ⟨f, hf, hfu⟩ := exists_isFirst hp
    exact (hfirst f (h.first f hf) (hfu.trans hu)).trans (hf.2 p hp hfu.symm)
  · intro hf
    exact ⟨h.first e hf, fun p hp => hf.2 p (h.subset hp)⟩

/-- What the tables of a round have after the groups so far. -/
structure RoundInv (newest : ℕ) (groups : List (List Output)) (m : Merged) : Prop where
  kept : (∀ g ∈ groups, KeysDiffer (entriesOf g)) →
    ∀ e, e ∈ entriesOf m.tables ↔ ∃ g ∈ groups, IsFirst (entriesOf g) e
  subperm : (entriesOf m.tables).Subperm (entriesOf groups.flatten)
  sorted : ∀ t ∈ m.tables, Entry.Sorted t.entries
  nonempty : ∀ t ∈ m.tables, t.entries ≠ []
  newest : m.newest = max newest (maxSequence (entriesOf groups.flatten))

theorem sorted_of_increasing {tables : List Output}
    (h : (entriesOf tables).Pairwise fun a b => a.userKey < b.userKey) :
    ∀ t ∈ tables, Entry.Sorted t.entries := by
  intro t ht
  refine (h.sublist ?_).imp InternalKey.lt_of_userKey_lt
  rw [entriesOf, List.flatMap_def]
  exact List.sublist_flatten_of_mem (List.mem_map_of_mem ht)

theorem entriesOf_append (a b : List Output) : entriesOf (a ++ b) = entriesOf a ++ entriesOf b :=
  List.flatMap_append

theorem RoundInv.step {opts : Options} {newest : ℕ} {groups : List (List Output)} {m m' : Merged}
    {group : List Output} (h : RoundInv newest groups m)
    (hs : ∀ t ∈ group, Entry.Sorted t.entries)
    (hstep : mergeGroup opts m group = .ok m') : RoundInv newest (groups ++ [group]) m' := by
  unfold mergeGroup at hstep
  cases hpass : mergePass opts false group m.nextNumber m.newest with
  | error status =>
    rw [hpass] at hstep
    exact nomatch hstep
  | ok st =>
    rw [hpass] at hstep
    obtain rfl := Except.ok.inj hstep
    obtain ⟨hkept, hsubperm, hinc, hok, hnewest, -⟩ := mergePass_spec hs hpass
    have hflatten : entriesOf (groups ++ [group]).flatten =
        entriesOf groups.flatten ++ entriesOf group := by
      rw [List.flatten_append, List.flatten_singleton, entriesOf_append]
    refine ⟨fun hkeys e => ?_, ?_, fun t ht => ?_, fun t ht => ?_, ?_⟩
    · rw [entriesOf_append, List.mem_append, h.kept (fun g hg => hkeys g (List.mem_append_left _ hg)),
        hkept (hkeys group (by simp))]
      simp [or_and_right, exists_or]
    · rw [hflatten, entriesOf_append]
      exact h.subperm.append hsubperm
    · rcases List.mem_append.mp ht with ht | ht
      · exact h.sorted t ht
      · exact sorted_of_increasing hinc t ht
    · rcases List.mem_append.mp ht with ht | ht
      · exact h.nonempty t ht
      · intro hnil
        have hsmallest := (hok t ht).smallest
        simp [hnil] at hsmallest
    · show st.newest = _
      rw [hnewest, h.newest, hflatten, maxSequence_append, max_assoc]

theorem RoundInv.run {opts : Options} {newest : ℕ} :
    ∀ {rest groups : List (List Output)} {m m' : Merged}, RoundInv newest groups m →
      (∀ g ∈ rest, ∀ t ∈ g, Entry.Sorted t.entries) →
      rest.foldlM (mergeGroup opts) m = .ok m' → RoundInv newest (groups ++ rest) m' := by
  intro rest
  induction rest with
  | nil =>
    intro groups m m' h _ hrun
    obtain rfl := Except.ok.inj hrun
    rwa [List.append_nil]
  | cons g rest ih =>
    intro groups m m' h hs hrun
    rw [List.foldlM_cons] at hrun
    cases hgroup : mergeGroup opts m g with
    | error status =>
      rw [hgroup] at hrun
      exact nomatch hrun
    | ok m₁ =>
      rw [hgroup] at hrun
      rw [List.append_cons]
      exact ih (h.step (hs g (by simp)) hgroup) (fun g' hg' => hs g' (List.mem_cons_of_mem _ hg')) hrun

theorem groups_flatten (tables : List Output) :
    (groupsOf kMergeFanIn tables.length tables).flatten = tables :=
  groupsOf_flatten (by norm_num [kMergeFanIn]) le_rfl

theorem mem_groups {tables g : List Output}
    (hg : g ∈ groupsOf kMergeFanIn tables.length tables) : g ⊆ tables := fun t ht => by
  rw [← groups_flatten tables]
  exact List.mem_flatten.mpr ⟨g, hg, ht⟩

theorem entriesOf_mono {tables tables' : List Output} (h : tables' ⊆ tables) :
    entriesOf tables' ⊆ entriesOf tables := by
  intro e he
  obtain ⟨t, ht, het⟩ := List.mem_flatMap.mp he
  exact List.mem_flatMap.mpr ⟨t, h ht, het⟩

/-- A round as a whole. -/
theorem mergeRound_inv {opts : Options} {m m' : Merged} (hs : ∀ t ∈ m.tables, Entry.Sorted t.entries)
    (h : mergeRound opts m = .ok m') :
    RoundInv m.newest (groupsOf kMergeFanIn m.tables.length m.tables) m' := by
  have hstart : RoundInv m.newest [] ⟨[], m.nextNumber, m.newest⟩ :=
    ⟨fun _ e => by simp [entriesOf], List.nil_subperm, fun t ht => absurd ht List.not_mem_nil,
      fun t ht => absurd ht List.not_mem_nil, (Nat.max_zero _).symm⟩
  exact hstart.run (fun g hg t ht => hs t (mem_groups hg ht)) h

/-- What is left after a round has the newest versions of all entries. -/
theorem mergeRound_refines {opts : Options} {m m' : Merged}
    (hs : ∀ t ∈ m.tables, Entry.Sorted t.entries) (hkeys : KeysDiffer (entriesOf m.tables))
    (h : mergeRound opts m = .ok m') : Refines (entriesOf m.tables) (entriesOf m'.tables) := by
  have hinv := mergeRound_inv hs h
  have hkept := hinv.kept fun g hg => hkeys.subset (entriesOf_mono (mem_groups hg))
  refine ⟨fun e he => ?_, fun e he => ?_⟩
  · have hsub := hinv.subperm.subset he
    rwa [groups_flatten] at hsub
  · -- the first of all is the first of its group
    obtain ⟨t, ht, het⟩ := List.mem_flatMap.mp he.1
    rw [← groups_flatten m.tables] at ht
    obtain ⟨g, hg, htg⟩ := List.mem_flatten.mp ht
    refine (hkept e).mpr ⟨g, hg, List.mem_flatMap.mpr ⟨t, htg, het⟩, fun p hp => ?_⟩
    exact he.2 p (entriesOf_mono (mem_groups hg) hp)

/-- Entries of one user key with one sequence are one entry. -/
def SequencesDiffer (es : List Entry) : Prop :=
  ∀ a ∈ es, ∀ b ∈ es, a.userKey = b.userKey → a.sequence = b.sequence → a = b

theorem SequencesDiffer.keysDiffer {es : List Entry} (h : SequencesDiffer es) : KeysDiffer es :=
  fun a ha b hb heq => h a ha b hb (congrArg InternalKey.userKey heq) (congrArg InternalKey.sequence heq)

/-- The first entry of a user key is the one of the largest sequence. -/
theorem isFirst_iff_largest {es : List Entry} (h : SequencesDiffer es) (e : Entry) :
    IsFirst es e ↔ e ∈ es ∧ ∀ p ∈ es, p.userKey = e.userKey → p.sequence ≤ e.sequence := by
  refine and_congr_right fun he => forall₃_congr fun p hp hu => ?_
  have hiff : e.key ≤ p.key ↔ p.key.trailer ≤ e.key.trailer := by
    rw [InternalKey.le_iff]
    simp [hu]
  rw [hiff]
  unfold Entry.sequence InternalKey.sequence
  constructor
  · exact fun hle => Nat.div_le_div_right hle
  · intro hle
    rcases hle.lt_or_eq with hlt | heq
    · omega
    · rw [h p hp e he hu heq]

/-- The pass that ends a merge. -/
theorem finalPass_spec {opts : Options} {m merged : Merged}
    (hs : ∀ t ∈ m.tables, Entry.Sorted t.entries) (hkeys : KeysDiffer (entriesOf m.tables))
    (h : ((mergePass opts true m.tables m.nextNumber m.newest).map fun st =>
      (⟨st.outputs, st.nextNumber, st.newest⟩ : Merged)) = .ok merged) :
    (∀ e, e ∈ entriesOf merged.tables ↔ IsFirst (entriesOf m.tables) e ∧
      e.key.typeByte = ValueType.value.toNat) ∧
    (entriesOf merged.tables).Pairwise (fun a b => a.userKey < b.userKey) ∧
    (∀ o ∈ merged.tables, OutputOk o) ∧
    merged.newest = max m.newest (maxSequence (entriesOf m.tables)) := by
  cases hpass : mergePass opts true m.tables m.nextNumber m.newest with
  | error status =>
    rw [hpass] at h
    exact nomatch h
  | ok st =>
    rw [hpass] at h
    obtain rfl := Except.ok.inj h
    obtain ⟨hkept, -, hinc, hok, hnewest, hparses⟩ := mergePass_spec hs hpass
    refine ⟨fun e => (hkept hkeys e).trans (and_congr_right fun hfirst => ?_), hinc, hok, hnewest⟩
    obtain ⟨parsed, hparsed⟩ := Option.isSome_iff_exists.mp (hparses e hfirst.1)
    have hle := (parse_type hparsed).2.2.2
    rw [ValueType.toNat_value]
    constructor
    · intro hkeep
      have hne : e.key.typeByte ≠ 0 := fun hzero => hkeep ⟨rfl, hzero⟩
      omega
    · rintro hone ⟨-, hzero⟩
      omega

theorem merge_spec {opts : Options} {merged : Merged} :
    ∀ {rounds : ℕ} {m : Merged}, (∀ t ∈ m.tables, Entry.Sorted t.entries) →
      KeysDiffer (entriesOf m.tables) → merge opts rounds m = some (.ok merged) →
      (∀ e, e ∈ entriesOf merged.tables ↔ IsFirst (entriesOf m.tables) e ∧
        e.key.typeByte = ValueType.value.toNat) ∧
      (entriesOf merged.tables).Pairwise (fun a b => a.userKey < b.userKey) ∧
      (∀ o ∈ merged.tables, OutputOk o) ∧
      merged.newest = max m.newest (maxSequence (entriesOf m.tables)) := by
  intro rounds
  induction rounds with
  | zero =>
    intro m hs hkeys h
    unfold merge at h
    split_ifs at h with hfew
    exact finalPass_spec hs hkeys (Option.some.inj h)
  | succ rounds ih =>
    intro m hs hkeys h
    unfold merge at h
    split_ifs at h with hfew
    · exact finalPass_spec hs hkeys (Option.some.inj h)
    · cases hround : mergeRound opts m with
      | error status => simp [hround] at h
      | ok m' =>
        simp only [hround] at h
        have hrefines := mergeRound_refines hs hkeys hround
        have hinv := mergeRound_inv hs hround
        obtain ⟨hkept, hinc, hok, hlast⟩ := ih hinv.sorted (hkeys.subset hrefines.subset) h
        refine ⟨fun e => ?_, hinc, hok, ?_⟩
        · rw [hkept, hrefines.isFirst_iff]
        · rw [hlast, hinv.newest, groups_flatten]
          exact max_eq_left ((maxSequence_mono hrefines.subset).trans (le_max_right _ _))

/-- The outputs of a merge, whatever rounds it makes, have for every user key the entry of
    the largest sequence if that is a value and nothing if it is a deletion. They are in
    order and share no user key, each with its first and last key, and the newest sequence
    is over all entries of the inputs. -/
theorem merge_newest {opts : Options} {rounds : ℕ} {inputs : List Output} {nextNumber newest : ℕ}
    {merged : Merged} (hs : ∀ t ∈ inputs, Entry.Sorted t.entries)
    (hsame : SequencesDiffer (entriesOf inputs))
    (h : merge opts rounds ⟨inputs, nextNumber, newest⟩ = some (.ok merged)) :
    (∀ e, e ∈ entriesOf merged.tables ↔
      (e ∈ entriesOf inputs ∧ ∀ p ∈ entriesOf inputs, p.userKey = e.userKey →
        p.sequence ≤ e.sequence) ∧ e.key.typeByte = ValueType.value.toNat) ∧
    (entriesOf merged.tables).Pairwise (fun a b => a.userKey < b.userKey) ∧
    (∀ o ∈ merged.tables, OutputOk o) ∧
    merged.newest = max newest (maxSequence (entriesOf inputs)) := by
  obtain ⟨hkept, hrest⟩ := merge_spec hs hsame.keysDiffer h
  refine ⟨fun e => ?_, hrest⟩
  rw [hkept, isFirst_iff_largest hsame]

/-- Two tables with a copy in common, the older version in the file of the larger number, and
    a deletion. -/
def overlapping : List Output :=
  [⟨4, makeInternalKey [97] 7 .value, makeInternalKey [98] 3 .value,
      [⟨makeInternalKey [97] 7 .value, [1]⟩, ⟨makeInternalKey [98] 3 .value, [2]⟩]⟩,
    ⟨9, makeInternalKey [97] 5 .value, makeInternalKey [99] 6 .deletion,
      [⟨makeInternalKey [97] 5 .value, [3]⟩, ⟨makeInternalKey [98] 3 .value, [2]⟩,
        ⟨makeInternalKey [99] 6 .deletion, []⟩]⟩]

theorem merge_newest_overlapping :
    ∃ merged, merge ⟨1000, List.length, List.length⟩ 0 ⟨overlapping, 10, 0⟩ = some (.ok merged) ∧
      ⟨makeInternalKey [97] 7 .value, [1]⟩ ∈ entriesOf merged.tables ∧ merged.newest = 7 := by
  have heval : (merge ⟨1000, List.length, List.length⟩ 0 ⟨overlapping, 10, 0⟩).any
      (fun r => r.toOption.isSome) = true := by decide +kernel
  obtain ⟨r, hr, hok⟩ := (Option.any_eq_true _ _).mp heval
  cases r with
  | error status => exact nomatch hok
  | ok merged =>
    obtain ⟨hkept, -, -, hnewest⟩ := merge_newest
      (fun t ht => by
        revert t
        unfold Entry.Sorted
        decide +kernel)
      (by
        unfold SequencesDiffer
        decide +kernel) hr
    refine ⟨merged, hr, (hkept _).mpr ?_, hnewest.trans ?_⟩
    · decide +kernel
    · decide +kernel

end Repair

end Ambar
