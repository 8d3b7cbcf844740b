import Ambar.Concurrency.GroupCommit

/-!
# Records and sequences of the groups

Which sequences the groups of writers are given, and what a run of group commits amounts to.
The count in a record's header is a `uint32_t`, and it is by this count that `last_sequence`
is advanced (`src/db_impl.cpp`, line 566): a batch of `2 ^ 32` operations or more advances it
by too little. `last_sequence` itself is a `uint64_t`.

Results:
* `Numbered.step`: what one step keeps of the sequences.
* `group_commit`: every batch is in at most one record, the records hold the batches in queue
  order, sequences are consecutive and published last, and a group shares its status, in
  every run whose batches have fewer than `2 ^ 32` operations.
* `sequences_reused`: with a batch of `2 ^ 32` operations, the next group is given the same
  sequences again.
-/

namespace Ambar

namespace GroupCommit

open WriteBatch (ofOps)

variable {W : Type*} [DecidableEq W]

/-! ## Sequences -/

/-- The groups that are formed have batches that can be counted, and sequences are left. -/
def Counted (r : Requests W) (s : State W) : Action W → Prop
  | .group => ∀ s' ∈ s.step r .group, ∀ g ∈ s'.working,
    (∀ w ∈ g.members, ∀ ops ∈ r.batch w, ops.length < 2 ^ 32 ∧ ∀ op ∈ ops, op.Fits) ∧
      s.lastSequence + (r.ops g.members).length < 2 ^ 64
  | _ => True

instance Counted.decidable (r : Requests W) (s : State W) : ∀ a, Decidable (Counted r s a)
  | .group => inferInstanceAs (Decidable (∀ s' ∈ s.step r .group, ∀ g ∈ s'.working,
      (∀ w ∈ g.members, ∀ ops ∈ r.batch w, ops.length < 2 ^ 32 ∧ ∀ op ∈ ops, op.Fits) ∧
        s.lastSequence + (r.ops g.members).length < 2 ^ 64))
  | .join _ | .refuse _ _ | .append _ _ | .flush _ | .insert | .publish | .fail _ => isTrue trivial

/-- The sequences of the groups follow one another from `n`, and the records hold what the
    groups were given. -/
structure Numbered (r : Requests W) (n : ℕ) (s : State W) : Prop where
  last : s.lastSequence = n + (r.ops (s.groups.flatMap Group.members)).length
  records : ∀ g ∈ s.allGroups, g.record.iterate = (r.ops g.members, .ok)
  assigned : s.groups.flatMap Group.assigned =
    List.range' (n + 1) (r.ops (s.groups.flatMap Group.members)).length
  working : ∀ g, s.working = some g →
    g.assigned = List.range' (s.lastSequence + 1) (r.ops g.members).length ∧
      g.last = s.lastSequence + (r.ops g.members).length

omit [DecidableEq W] in
theorem numbered_init (r : Requests W) (n : ℕ) : Numbered r n (State.init n) where
  last := rfl
  records := fun g hg => absurd hg List.not_mem_nil
  assigned := rfl
  working := fun g hg => by cases hg

/-- The sequences of a record are consecutive, as long as there are any left. -/
theorem assigned_ofOps {ops : List Op} {n : ℕ} (hfits : ∀ op ∈ ops, op.Fits) (hn : n + ops.length < 2 ^ 64) :
    ((ofOps ops).setSequence (n + 1)).insertInto.1.map Prod.fst = List.range' (n + 1) ops.length := by
  rw [WriteBatch.ofOps_eq, WriteBatch.setSequence_layout]
  cases ops with
  | nil =>
    rw [WriteBatch.insertInto, WriteBatch.iterate_layout hfits]
    rfl
  | cons op ops =>
    rw [List.length_cons] at hn
    rw [WriteBatch.insertInto_layout hfits (by omega), List.map_map]
    have hmap : ∀ p ∈ (op :: ops).zipIdx, (Prod.fst ∘ fun p : Op × ℕ => ((n + 1 + p.2) % 2 ^ 64, p.1)) p =
        n + 1 + p.2 := by
      intro p hp
      have hlt := List.snd_lt_of_mem_zipIdx hp
      rw [List.length_cons] at hlt
      exact Nat.mod_eq_of_lt (by omega)
    rw [List.map_congr_left hmap]
    show ((op :: ops).zipIdx.map ((n + 1 + ·) ∘ Prod.snd)) = _
    rw [← List.map_map, List.zipIdx_map_snd, List.map_add_range', Nat.add_zero]

omit [DecidableEq W] in
/-- The operations of a group that was built are few enough to be counted. -/
theorem count_built {r : Requests W} {s : State W} {g : Group W} (hbuilt : Built r s g)
    (hsmall : ∀ w ∈ g.members, ∀ ops ∈ r.batch w, ops.length < 2 ^ 32 ∧ ∀ op ∈ ops, op.Fits) :
    (r.ops g.members).length < 2 ^ 32 ∧ ∀ op ∈ r.ops g.members, op.Fits := by
  refine ⟨?_, fun op hop => ?_⟩
  · -- a group of several is small in bytes
    rcases hbuilt.size with hnil | hle
    · rw [Group.members, hnil, Requests.ops, List.flatMap_singleton]
      cases hbatch : r.batch g.leader with
      | none => exact Nat.two_pow_pos 32
      | some ops => exact (hsmall g.leader List.mem_cons_self ops hbatch).1
    · exact hle.trans_lt (by norm_num)
  · obtain ⟨w, hw, hop⟩ := List.mem_flatMap.mp hop
    cases hbatch : r.batch w with
    | none =>
      rw [hbatch] at hop
      cases hop
    | some ops =>
      rw [hbatch] at hop
      exact (hsmall w hw ops hbatch).2 op hop

namespace Numbered

variable {r : Requests W} {n : ℕ} {s : State W} (h : Numbered r n s)

include h

omit [DecidableEq W] in
/-- A step that leaves the groups and the counter. -/
theorem same {s' : State W} (hgroups : s'.groups = s.groups) (hworking : s'.working = s.working)
    (hlast : s'.lastSequence = s.lastSequence) : Numbered r n s' where
  last := by rw [hlast, hgroups, h.last]
  records := by
    rw [State.allGroups, hgroups, hworking]
    exact h.records
  assigned := by rw [hgroups, h.assigned]
  working := by
    rw [hworking, hlast]
    exact h.working

theorem step_publish {s' : State W} (hstep : s.step r .publish = some s') : Numbered r n s' := by
  obtain ⟨g, hg, hstep⟩ := Option.bind_eq_some_iff.mp hstep
  rw [Option.ite_none_right_eq_some] at hstep
  obtain rfl := Option.some.inj hstep.2
  obtain ⟨hassigned, hlast⟩ := h.working g hg
  have hops : r.ops ((s.groups ++ [g]).flatMap Group.members) =
      r.ops (s.groups.flatMap Group.members) ++ r.ops g.members := by
    rw [List.flatMap_append, List.flatMap_singleton]
    exact List.flatMap_append
  exact {
    last := by
      show g.last = n + (r.ops ((s.groups ++ [g]).flatMap Group.members)).length
      rw [hlast, hops, List.length_append, h.last, Nat.add_assoc]
    records := fun g' hg' => by
      refine h.records g' ?_
      rw [State.allGroups, hg]
      simpa [State.allGroups, State.finish] using hg'
    assigned := by
      show (s.groups ++ [g]).flatMap Group.assigned =
        List.range' (n + 1) (r.ops ((s.groups ++ [g]).flatMap Group.members)).length
      rw [List.flatMap_append, List.flatMap_singleton, h.assigned, hassigned, hops, List.length_append,
        ← List.range'_append_1, h.last]
      congr 2
      omega
    working := fun g' hg' => by cases hg' }

omit [DecidableEq W] in
theorem step_atLog {f : Group W → Option (Group W)} {s' : State W}
    (hf : ∀ g g', f g = some g' → g'.leader = g.leader ∧ g'.followers = g.followers ∧
      g'.record = g.record ∧ g'.last = g.last)
    (hstep : s.atLog f = some s') : Numbered r n s' := by
  obtain ⟨g, hg, hstep⟩ := Option.bind_eq_some_iff.mp hstep
  obtain ⟨g', hg', rfl⟩ := Option.map_eq_some_iff.mp hstep
  obtain ⟨hleader, hfollowers, hrecord, hlast⟩ := hf g g' hg'
  have hmembers : g'.members = g.members := by rw [Group.members, Group.members, hleader, hfollowers]
  refine ⟨h.last, fun x hx => ?_, h.assigned, fun x hx => ?_⟩
  · rcases List.mem_append.mp hx with hx | hx
    · exact h.records x (List.mem_append_left _ hx)
    · rw [List.mem_singleton.mp hx, hmembers, hrecord]
      exact h.records g (List.mem_append_right _ (by rw [hg]; exact List.mem_singleton_self g))
  · obtain rfl := Option.some.inj hx
    rw [hmembers, hlast, Group.assigned, hrecord]
    exact h.working g hg

omit [DecidableEq W] in
/-- The group is given the sequences after the last. -/
theorem step_form {g : Group W} {tmp : WriteBatch} (hbuilt : Built r s g)
    (hsmall : ∀ w ∈ g.members, ∀ ops ∈ r.batch w, ops.length < 2 ^ 32 ∧ ∀ op ∈ ops, op.Fits)
    (hleft : s.lastSequence + (r.ops g.members).length < 2 ^ 64) :
    Numbered r n { s with working := some g, tmpBatch := tmp } := by
  obtain ⟨hlen, hfits⟩ := count_built hbuilt hsmall
  refine ⟨h.last, fun x hx => ?_, h.assigned, fun x hx => ?_⟩
  · rcases List.mem_append.mp hx with hx | hx
    · exact h.records x (List.mem_append_left _ hx)
    · rw [List.mem_singleton.mp hx, hbuilt.record, WriteBatch.ofOps_eq, WriteBatch.setSequence_layout]
      exact WriteBatch.iterate_layout hfits
  · obtain rfl := Option.some.inj hx
    refine ⟨?_, ?_⟩
    · rw [Group.assigned, hbuilt.record]
      exact assigned_ofOps hfits hleft
    · rw [hbuilt.last, hbuilt.record, WriteBatch.ofOps_eq, WriteBatch.setSequence_layout,
        Nat.mod_eq_of_lt hlen, WriteBatch.count_layout hlen, Nat.mod_eq_of_lt hleft]

/-- **One step.** -/
theorem step (hok : Ok r s) {a : Action W} {s' : State W} (hcounted : Counted r s a)
    (hstep : s.step r a = some s') : Numbered r n s' := by
  cases a with
  | join w =>
    rw [State.step, Option.ite_none_left_eq_some] at hstep
    obtain rfl := Option.some.inj hstep.2
    exact h.same rfl rfl rfl
  | group =>
    have hgroup := hcounted s' hstep
    dsimp only [State.step] at hstep
    split at hstep
    · rename_i first rest hworking hqueue
      rw [Option.ite_none_right_eq_some] at hstep
      obtain ⟨-, hstep⟩ := hstep
      cases hbatch : r.batch first with
      | none =>
        rw [hbatch] at hstep
        obtain rfl := Option.some.inj hstep
        exact h.same rfl rfl rfl
      | some ops =>
        rw [hbatch] at hstep
        obtain rfl := Option.some.inj hstep
        obtain ⟨hsmall, hleft⟩ := hgroup _ rfl
        have htmp := hok.tmp fun g hg => by rw [hworking] at hg; cases hg
        exact h.step_form (build_spec htmp hqueue hbatch) hsmall hleft
    · cases hstep
  | refuse failure recorded =>
    dsimp only [State.step] at hstep
    split at hstep
    · rw [Option.ite_none_right_eq_some] at hstep
      obtain rfl := Option.some.inj hstep.2
      exact h.same rfl rfl rfl
    · cases hstep
  | append status whole =>
    refine h.step_atLog (fun g g' hg => ?_) hstep
    simp only [Option.ite_none_right_eq_some, Option.some.injEq] at hg
    obtain ⟨-, rfl⟩ := hg
    exact ⟨rfl, rfl, rfl, rfl⟩
  | flush status =>
    refine h.step_atLog (fun g g' hg => ?_) hstep
    simp only [Option.ite_none_right_eq_some, Option.some.injEq] at hg
    obtain ⟨-, rfl⟩ := hg
    exact ⟨rfl, rfl, rfl, rfl⟩
  | insert =>
    refine h.step_atLog (fun g g' hg => ?_) hstep
    simp only [Option.ite_none_right_eq_some, Option.some.injEq] at hg
    obtain ⟨-, rfl⟩ := hg
    exact ⟨rfl, rfl, rfl, rfl⟩
  | publish => exact h.step_publish hstep
  | fail failure =>
    simp only [State.step, Option.ite_none_right_eq_some, Option.some.injEq] at hstep
    obtain ⟨-, rfl⟩ := hstep
    exact h.same rfl rfl rfl

omit [DecidableEq W] in
/-- The sequences of all groups, the one at hand included. -/
theorem all_assigned : s.allGroups.flatMap Group.assigned =
    List.range' (n + 1) (r.ops (s.allGroups.flatMap Group.members)).length := by
  rw [State.allGroups, List.flatMap_append, List.flatMap_append, Requests.ops, List.flatMap_append,
    List.length_append, h.assigned]
  cases hg : s.working with
  | none => simp [Requests.ops]
  | some g =>
    rw [Option.toList_some, List.flatMap_singleton, List.flatMap_singleton, (h.working g hg).1,
      ← List.range'_append_1, h.last]
    congr 2
    rw [Requests.ops]
    omega

end Numbered

/-- In every run. -/
theorem ok_run {r : Requests W} {n : ℕ} {as : List (Action W)} {s : State W}
    (hcounted : Lib.Along (State.step r) (Counted r) (State.init n) as)
    (hrun : Lib.run (State.step r) (State.init n) as = some s) : Ok r s ∧ Numbered r n s :=
  have hkept : ∀ (s : State W) a s', Ok r s ∧ Numbered r n s → Counted r s a → s.step r a = some s' →
      Ok r s' ∧ Numbered r n s' := fun _ _ _ h hok hstep => ⟨h.1.step hstep, h.2.step h.1 hok hstep⟩
  Lib.run_invariant_of _ hkept ⟨ok_init r n, numbered_init r n⟩ hcounted hrun

/-! ## What a run amounts to -/

/-- The records of the log that carry the writer's batch. -/
def carriers (s : State W) (w : W) : List WriteBatch :=
  (s.allGroups.filter fun g => g.logged && decide (w ∈ g.members)).map Group.record

omit [DecidableEq W] in
theorem status_ok {g : Group W} (hfinished : g.Finished) (hok : g.status = .ok) :
    g.append = some .ok ∧ g.flush = some .ok := by
  obtain ⟨happend, hflush, -⟩ := hfinished
  unfold Group.status at hok
  cases ha : g.append with
  | none => exact absurd ha happend
  | some status =>
    rw [ha] at hok hflush
    cases status with
    | ok =>
      cases hf : g.flush with
      | none => exact absurd hf (hflush rfl)
      | some status =>
        rw [hf] at hok
        cases status with
        | ok => exact ⟨rfl, rfl⟩
        | _ => cases hok
    | _ => cases hok

namespace Ok

variable {r : Requests W} {s : State W} (h : Ok r s)

include h

theorem nodup_members : (s.allGroups.flatMap Group.members).Nodup := h.nodup.sublist h.order

theorem carriers_le_one (w : W) : (carriers s w).length ≤ 1 := by
  have hpair := (List.nodup_flatMap.mp h.nodup_members).2.filter
    fun g => g.logged && decide (w ∈ g.members)
  have hmem : ∀ g ∈ s.allGroups.filter (fun g => g.logged && decide (w ∈ g.members)), w ∈ g.members := by
    intro g hg
    have := List.of_mem_filter hg
    simp only [Bool.and_eq_true, decide_eq_true_eq] at this
    exact this.2
  rw [carriers, List.length_map]
  generalize s.allGroups.filter (fun g => g.logged && decide (w ∈ g.members)) = l at hpair hmem
  cases l with
  | nil => exact Nat.zero_le 1
  | cons g rest =>
    cases rest with
    | nil => exact le_rfl
    | cons g' rest =>
      have hdisjoint := List.rel_of_pairwise_cons hpair List.mem_cons_self
      exact absurd (hmem g' (List.mem_cons_of_mem _ List.mem_cons_self)) (hdisjoint (hmem g List.mem_cons_self))

/-- A member of a group is answered with its status, and not before the group is published. -/
theorem told_status {g : Group W} (hg : g ∈ s.allGroups) {w : W} (hw : w ∈ g.members) {status : Status}
    (hres : s.result w = some status) : status = g.status := by
  rcases List.mem_append.mp hg with hg | hg
  · exact Option.some.inj (hres.symm.trans ((h.groups g hg).2 w hw))
  · refine absurd ((h.working g (Option.mem_toList.mp hg)).subset hw) (h.not_mem_queue ?_)
    rw [hres]
    exact Option.some_ne_none status

/-- Who is answered ok and has a batch is in a group that was logged. -/
theorem answered_ok {w : W} (hbatch : r.batch w ≠ none) (hres : s.result w = some .ok) :
    ∃ g ∈ s.groups, w ∈ g.members ∧ g.append = some .ok ∧ g.flush = some .ok := by
  have hsome : r.batchless w = false := Option.isNone_eq_false_iff.mpr (Option.isSome_iff_ne_none.mpr hbatch)
  obtain ⟨g, hg, hw⟩ := h.acked w hres hsome
  have hstatus := h.told_status (List.mem_append_left _ hg) hw hres
  obtain ⟨happend, hflush⟩ := status_ok (h.groups g hg).1 hstatus.symm
  exact ⟨g, hg, hw, happend, hflush⟩

theorem carriers_of_ok {w : W} (hbatch : r.batch w ≠ none) (hres : s.result w = some .ok) :
    (carriers s w).length = 1 := by
  obtain ⟨g, hg, hw, happend, -⟩ := h.answered_ok hbatch hres
  have hlogged : g.logged = true := by
    rw [Group.logged, happend]
    rfl
  have hcarrier : g.record ∈ carriers s w := by
    refine List.mem_map_of_mem (List.mem_filter.mpr ⟨List.mem_append_left _ hg, ?_⟩)
    rw [hlogged, decide_eq_true hw]
    rfl
  exact le_antisymm (h.carriers_le_one w) (List.length_pos_of_mem hcarrier)

omit h in
/-- A part of a list without repetition is what is left of it. -/
theorem filter_mem_of_sublist {l L : List W} (hsub : l.Sublist L) (hnodup : L.Nodup) :
    L.filter (fun w => decide (w ∈ l)) = l := by
  have hself : l.filter (fun w => decide (w ∈ l)) = l :=
    List.filter_eq_self.mpr fun w hw => decide_eq_true hw
  have hle : l.Sublist (L.filter fun w => decide (w ∈ l)) := by
    have := hsub.filter fun w => decide (w ∈ l)
    rwa [hself] at this
  refine (hle.eq_of_length_le ?_).symm
  refine ((hnodup.filter _).subperm fun w hw => ?_).length_le
  exact of_decide_eq_true (List.mem_filter.mp hw).2

/-- The writers that some record carries, in queue order, are those of the records in order. -/
theorem carried_order : s.joined.filter (fun w => decide (carriers s w ≠ [])) =
    (s.allGroups.filter Group.logged).flatMap Group.members := by
  have hsub : ((s.allGroups.filter Group.logged).flatMap Group.members).Sublist s.joined :=
    (List.filter_sublist.flatMap Group.members).trans h.order
  rw [← filter_mem_of_sublist hsub h.nodup]
  refine List.filter_congr fun w _ => ?_
  rw [decide_eq_decide, carriers, Ne, List.map_eq_nil_iff, List.filter_eq_nil_iff, List.mem_flatMap]
  push Not
  simp only [List.mem_filter, Bool.and_eq_true, decide_eq_true_eq, and_assoc]

end Ok

/-- **Group commit**, in every state of every run of any number of writers with any batches, as
    long as the groups have batches of fewer than `2 ^ 32` operations that fit, and sequences
    are left: every batch is carried by at most one record of the log, and by one if its
    writer is answered ok; the records hold the carried batches in queue order; the sequences
    are consecutive; a writer with a batch and sync is answered ok only by a group whose leader
    synced the log; sequences are published only after the calls that precede; and a
    group's members are answered with its status, all of them once it is published. -/
theorem group_commit (r : Requests W) (n : ℕ) (as : List (Action W)) (s : State W)
    (hcounted : Lib.Along (State.step r) (Counted r) (State.init n) as)
    (hrun : Lib.run (State.step r) (State.init n) as = some s) :
    (∀ w, (carriers s w).length ≤ 1 ∧
      (r.batch w ≠ none → s.result w = some .ok → (carriers s w).length = 1)) ∧
    (s.allGroups.filter Group.logged).flatMap (fun g => g.record.iterate.1) =
      r.ops (s.joined.filter fun w => decide (carriers s w ≠ [])) ∧
    s.allGroups.flatMap Group.assigned =
      List.range' (n + 1) (r.ops (s.allGroups.flatMap Group.members)).length ∧
    (∀ w, r.batch w ≠ none → r.sync w = true → s.result w = some .ok →
      ∃ g ∈ s.groups, w ∈ g.members ∧ r.sync g.leader = true ∧ g.flush = some .ok) ∧
    (∀ g ∈ s.allGroups, (∃ i ∈ g.assigned, i ≤ s.lastSequence) → g.Finished) ∧
    (∀ g ∈ s.allGroups, ∀ w ∈ g.members, (∀ status, s.result w = some status → status = g.status) ∧
      (g ∈ s.groups → s.result w = some g.status)) := by
  obtain ⟨h, hnum⟩ := ok_run hcounted hrun
  refine ⟨fun w => ⟨h.carriers_le_one w, h.carriers_of_ok⟩, ?_, hnum.all_assigned,
    fun w hbatch hsync hres => ?_, fun g hg hpublished => ?_,
    fun g hg w hw => ⟨fun status => h.told_status hg hw, fun hg => (h.groups g hg).2 w hw⟩⟩
  · rw [h.carried_order, Requests.ops, List.flatMap_assoc]
    refine List.flatMap_congr fun g hg => ?_
    rw [hnum.records g (List.mem_filter.mp hg).1]
    rfl
  · obtain ⟨g, hg, hw, -, hflush⟩ := h.answered_ok hbatch hres
    exact ⟨g, hg, hw, (h.formed g (List.mem_append_left _ hg)).sync w hw hsync, hflush⟩
  · rcases List.mem_append.mp hg with hg | hg
    · exact (h.groups g hg).1
    · obtain ⟨i, hi, hle⟩ := hpublished
      rw [(hnum.working g (Option.mem_toList.mp hg)).1] at hi
      have := (List.mem_range'_1.mp hi).1
      omega

/-! ## A count that wraps -/

/-- Two writers without sync, the second with one deletion. -/
def twoWriters (first : List Op) : Requests Bool where
  batch := fun w => some (bif w then [.del []] else first)
  sync := fun _ => false

/-- The first writes and returns; then the second joins. -/
def firstWrites : List (Action Bool) :=
  [.join false, .group, .append .ok true, .flush .ok, .insert, .publish, .join true]

theorem group_commit_two :
    ∃ s, Lib.run (State.step (twoWriters [.del [1]])) (State.init 7) (firstWrites ++ [.group]) = some s ∧
      s.result false = some .ok ∧ (carriers s false).length = 1 ∧
      s.allGroups.flatMap Group.assigned = [8, 9] := by
  have heval : (Lib.run (State.step (twoWriters [.del [1]])) (State.init 7)
      (firstWrites ++ [.group])).map (fun s => (s.result false,
        (Requests.ops (twoWriters [.del [1]]) (s.allGroups.flatMap Group.members)).length)) = some (some .ok, 2) := by
    decide +kernel
  obtain ⟨s, hs, heq⟩ := Option.map_eq_some_iff.mp heval
  obtain ⟨hres, hlen⟩ := Prod.mk.inj heq
  have hall := group_commit (twoWriters [.del [1]]) 7 (firstWrites ++ [.group]) s (by decide +kernel) hs
  refine ⟨s, hs, hres, (hall.1 false).2 (by simp [twoWriters]) hres, ?_⟩
  rw [hall.2.2.1, hlen]
  rfl

theorem firstWrites_run (first : List Op) :
    ∃ s g, Lib.run (State.step (twoWriters first)) (State.init 0) firstWrites = some s ∧
      s.queue = [true] ∧ s.working = none ∧ s.groups = [g] ∧
      g.record = (ofOps first).setSequence 1 ∧ s.lastSequence = (0 + g.record.count) % 2 ^ 64 ∧
      (g.record.insertInto.2 = .ok → s.backgroundError = .ok) ∧
      s.result false = some g.record.insertInto.2 := by
  refine ⟨_, _, rfl, rfl, rfl, rfl, rfl, rfl, fun hok => ?_, rfl⟩
  exact if_pos hok

/-- A group of the second writer. -/
theorem secondGroup (first : List Op) {s : State Bool} (hqueue : s.queue = [true]) (hworking : s.working = none)
    (herror : s.backgroundError = .ok) :
    ∃ s' g, s.step (twoWriters first) .group = some s' ∧ s'.groups = s.groups ∧ s'.result = s.result ∧
      s'.working = some g ∧ g.record = (ofOps [.del []]).setSequence (s.lastSequence + 1) := by
  dsimp only [State.step]
  rw [hqueue, hworking]
  dsimp only
  rw [if_pos herror]
  exact ⟨_, _, rfl, rfl, rfl, rfl, rfl⟩

/-- **Sequences are given twice.** A batch of `2 ^ 32` operations is logged and inserted, and its
    writer is answered ok; the group after it has the sequence of its first operation. -/
theorem sequences_reused :
    ∃ s, Lib.run (State.step (twoWriters (List.replicate (2 ^ 32) (.del [])))) (State.init 0)
        (firstWrites ++ [.group]) = some s ∧
      s.result false = some .ok ∧ ¬ (s.allGroups.flatMap Group.assigned).Nodup := by
  have hfits : ∀ op ∈ List.replicate (2 ^ 32) (Op.del []), op.Fits := fun op hop => by
    rw [List.eq_of_mem_replicate hop]
    exact Nat.two_pow_pos 32
  have hlen : (List.replicate (2 ^ 32) (Op.del [])).length = 2 ^ 32 := List.length_replicate
  generalize List.replicate (2 ^ 32) (Op.del []) = first at hfits hlen
  obtain ⟨s, g, hrun, hqueue, hworking, hgroups, hrecord, hlast, herror, hres⟩ := firstWrites_run first
  have hinsert : g.record.insertInto.2 = .ok := by
    rw [hrecord, WriteBatch.ofOps_eq, WriteBatch.setSequence_layout,
      WriteBatch.insertInto_layout hfits (by norm_num)]
  have hzero : s.lastSequence = 0 := by
    rw [hlast, hrecord, WriteBatch.ofOps_eq, WriteBatch.setSequence_layout, hlen, Nat.mod_self,
      WriteBatch.count_layout (by norm_num)]
    rfl
  obtain ⟨s', g', hstep, hgroups', hres', hworking', hrecord'⟩ :=
    secondGroup first hqueue hworking (herror hinsert)
  have hassigned : g.assigned = List.range' 1 (2 ^ 32) := by
    rw [Group.assigned, hrecord, ← hlen]
    exact assigned_ofOps (n := 0) hfits (by rw [hlen]; norm_num)
  have hassigned' : g'.assigned = [1] := by
    rw [Group.assigned, hrecord', hzero]
    exact assigned_ofOps (n := 0) (by decide) (by decide)
  refine ⟨s', ?_, ?_, ?_⟩
  · rw [Lib.run_append, hrun, Option.bind_some, Lib.run_cons, hstep]
    rfl
  · rw [hres', hres, hinsert]
  · rw [State.allGroups, hgroups', hworking', hgroups]
    show ¬ (g.assigned ++ (g'.assigned ++ [])).Nodup
    rw [hassigned, hassigned', List.append_nil]
    intro hnodup
    refine List.disjoint_of_nodup_append hnodup ?_ (List.mem_singleton_self 1)
    exact List.mem_range'_1.mpr ⟨le_rfl, by norm_num⟩

end GroupCommit

end Ambar
