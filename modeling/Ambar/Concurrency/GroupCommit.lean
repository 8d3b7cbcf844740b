import Ambar.Lib.Trace
import Ambar.Format.BatchBytes

/-!
# Group commit

What a leader writes for its group (`DBImpl::write`, `src/db_impl.cpp`, lines 536–659, and
`build_batch_group`, lines 716–753). The writer at the front of the queue leads. Once
`make_room_for_write` returns it joins the batches at the front of the queue, gives them the
sequences after `last_sequence`, and with the mutex released appends one record to the log,
flushes or syncs it and inserts it in the memtable. With the mutex back it advances
`last_sequence`, takes the group from the queue and tells every member the status. How the
next one comes to lead is a matter of its own (`Concurrency.Writers`).

A step is what happens under one hold of the mutex, or one call of the leader without it; each
call may fail, and writers may join between any two steps. What a failed append leaves
of its record in the log is arbitrary.

Results:
* `groupLoop_spec`: the loop lets in writers from the front of the queue, and the batch is that
  of all their operations.
* `Ok.step`: what one step keeps of the queue, of who is in which group and of what each call
  is answered.
-/

namespace Ambar

namespace GroupCommit

open WriteBatch (ofOps)

variable {W : Type*} [DecidableEq W]

/-! ## The model -/

/-- What each writer asks for: the operations of its batch, if it has one, and sync. -/
structure Requests (W : Type*) where
  batch : W → Option (List Op)
  sync : W → Bool

namespace Requests

variable (r : Requests W)

omit [DecidableEq W]

/-- The writer asks for a flush only. -/
def batchless (w : W) : Bool := (r.batch w).isNone

/-- The operations of the batches, in order. -/
def ops (ws : List W) : List Op := ws.flatMap fun w => (r.batch w).getD []

end Requests

/-- What is written for a group: its record, the local `last_sequence`, whether the record is
    in `tmp_batch_`, and how far the calls of lines 580–603 have come. `whole` says of an append
    that failed whether the record is in the log all the same. -/
structure Group (W : Type*) where
  leader : W
  followers : List W
  record : WriteBatch
  scratch : Bool
  last : ℕ
  append : Option Status
  whole : Bool
  flush : Option Status
  insert : Option Status

namespace Group

variable (g : Group W)

omit [DecidableEq W]

def members : List W := g.leader :: g.followers

/-- `last_writer`. -/
def lastWriter : W := g.followers.getLastD g.leader

/-- The record is in the log. -/
def logged : Bool := g.append == some .ok || (g.append.isSome && g.whole)

/-- The sequences of its operations, as they are inserted. -/
def assigned : List ℕ := g.record.insertInto.1.map Prod.fst

/-- `status` as the calls leave it. -/
def status : Status :=
  match g.append with
  | some .ok =>
    match g.flush with
    | some .ok => g.insert.getD .ok
    | some failure => failure
    | none => .ok
  | some failure => failure
  | none => .ok

/-- The log has been written and flushed or synced and, where that succeeded, the memtable. -/
def Finished : Prop :=
  g.append ≠ none ∧ (g.append = some .ok → g.flush ≠ none) ∧
    (g.append = some .ok → g.flush = some .ok → g.insert ≠ none)

instance : Decidable g.Finished := inferInstanceAs (Decidable (_ ∧ _))

end Group

/-- `max_size` (lines 725–728). -/
def maxGroupSize (size : ℕ) : ℕ := if size ≤ 2 ^ 17 then size + 2 ^ 17 else 2 ^ 20

theorem maxGroupSize_le (size : ℕ) : maxGroupSize size ≤ 2 ^ 20 := by
  unfold maxGroupSize
  split_ifs <;> omega

/-- The loop of `build_batch_group` (lines 731–751) on the writers behind the first: those it
    lets in, and `tmp_batch_` once that is used. -/
def groupLoop (r : Requests W) (sync : Bool) (tmp first : WriteBatch) (maxSize : ℕ) :
    (size : ℕ) → (result : Option WriteBatch) → List W → List W × Option WriteBatch
  | _, result, [] => ([], result)
  | size, result, w :: rest =>
    if r.sync w && !sync then ([], result)
    else
      match r.batch w with
      | none => ([], result)
      | some ops =>
        let size := size + (ofOps ops).rep.length
        if maxSize < size then ([], result)
        else
          let result := (result.getD (tmp.append first)).append (ofOps ops)
          let (ws, result) := groupLoop r sync tmp first maxSize size (some result) rest
          (w :: ws, result)

/-- `writers_`, and what the one at its front works on. `result` is what each call of `write`
    returns and `joined` the order in which they were queued; `groups` are those whose
    sequences are published. -/
structure State (W : Type*) where
  queue : List W
  joined : List W
  working : Option (Group W)
  lastSequence : ℕ
  backgroundError : Status
  tmpBatch : WriteBatch
  groups : List (Group W)
  result : W → Option Status

def State.init (n : ℕ) : State W where
  queue := []
  joined := []
  working := none
  lastSequence := n
  backgroundError := .ok
  tmpBatch := .empty
  groups := []
  result := fun _ => none

/-- The steps: a writer is queued, `make_room_for_write` returns ok or a failure, the calls of
    the leader, the end of its group, and an error of another thread. -/
inductive Action (W : Type*) where
  | join (w : W)
  | group
  | refuse (failure : Status) (recorded : Bool)
  | append (status : Status) (whole : Bool)
  | flush (status : Status)
  | insert
  | publish
  | fail (failure : Status)

/-- The loop of lines 644–656: the writers up to `last` are taken from the queue and answered;
    the leader's own call returns the status. -/
def report (last : W) (status : Status) : List W → (W → Option Status) → List W × (W → Option Status)
  | [], result => ([], result)
  | ready :: rest, result =>
    let result := Function.update result ready (some status)
    if ready = last then (rest, result) else report last status rest result

namespace State

variable (r : Requests W) (s : State W)

/-- The groups in the order in which they were formed. -/
def allGroups : List (Group W) := s.groups ++ s.working.toList

/-- `record_background_error` (lines 1031–1036). -/
def recordBackgroundError (failure : Status) : Status :=
  if s.backgroundError = .ok then failure else s.backgroundError

/-- `build_batch_group` (lines 716–753), and lines 561–566. -/
def build (first : W) (ops : List Op) (rest : List W) : Group W :=
  let batch := ofOps ops
  let size := batch.rep.length
  let group := groupLoop r (r.sync first) s.tmpBatch batch (maxGroupSize size) size none rest
  let batch := (group.2.getD batch).setSequence (s.lastSequence + 1)
  { leader := first, followers := group.1, record := batch, scratch := group.2.isSome
    last := (s.lastSequence + batch.count) % 2 ^ 64
    append := none, whole := false, flush := none, insert := none }

/-- The group is told. -/
def finish (last : W) (status : Status) : State W :=
  { s with
    queue := (report last status s.queue s.result).1
    result := (report last status s.queue s.result).2 }

/-- A call of the leader at the log or the memtable. -/
def atLog (f : Group W → Option (Group W)) : Option (State W) :=
  s.working.bind fun g => (f g).map fun g' => { s with working := some g' }

/-- One step. -/
def step : Action W → Option (State W)
  | .join w =>
    if w ∈ s.joined then none else some { s with queue := s.queue ++ [w], joined := s.joined ++ [w] }
  | .group =>
    match s.working, s.queue with
    | none, first :: rest =>
      if s.backgroundError = .ok then
        match r.batch first with
        | none => some (s.finish first .ok)
        | some ops =>
          let g := s.build r first ops rest
          some { s with working := some g, tmpBatch := if g.scratch then g.record else s.tmpBatch }
      else none
    | _, _ => none
  | .refuse failure recorded =>
    match s.working, s.queue with
    | none, first :: _ =>
      if failure ≠ .ok ∧ (s.backgroundError ≠ .ok → failure = s.backgroundError) then
        some ({ s with
          backgroundError := if recorded then s.recordBackgroundError failure else s.backgroundError
          }.finish first failure)
      else none
    | _, _ => none
  | .append status whole =>
    s.atLog fun g => if g.append = none then some { g with append := some status, whole } else none
  | .flush status =>
    s.atLog fun g =>
      if g.append = some .ok ∧ g.flush = none then some { g with flush := some status } else none
  | .insert =>
    s.atLog fun g =>
      if g.flush = some .ok ∧ g.insert = none then
        some { g with insert := some g.record.insertInto.2 } else none
  | .publish =>
    s.working.bind fun g =>
      if g.Finished then
        some ({ s with
          tmpBatch := if g.scratch then .empty else s.tmpBatch
          lastSequence := g.last
          backgroundError :=
            if g.status = Status.ok then s.backgroundError else s.recordBackgroundError g.status
          groups := s.groups ++ [g]
          working := none }.finish g.lastWriter g.status)
      else none
  | .fail failure =>
    if failure ≠ .ok then some { s with backgroundError := s.recordBackgroundError failure } else none

end State

/-! ## The writers of a group -/

omit [DecidableEq W] in
/-- **The loop of `build_batch_group`.** It lets in writers from the front, each with a batch
    and none with sync if the first has none; they fit the size, and the batch is that of all
    their operations. -/
theorem groupLoop_spec {r : Requests W} {sync : Bool} {first : List Op} {maxSize : ℕ} (rest : List W) :
    ∀ (size : ℕ) (before : List Op) (result : Option WriteBatch) {ws : List W} {out : Option WriteBatch},
      groupLoop r sync .empty (ofOps first) maxSize size result rest = (ws, out) →
      result.getD (ofOps first) = ofOps before → before.length ≤ size →
      ws <+: rest ∧ (∀ w ∈ ws, r.batchless w = false ∧ (r.sync w = true → sync = true)) ∧
      out.getD (ofOps first) = ofOps (before ++ r.ops ws) ∧
      (ws = [] ∨ (before ++ r.ops ws).length ≤ maxSize) := by
  induction rest with
  | nil =>
    intro size before result ws out hloop hresult hsize
    obtain ⟨rfl, rfl⟩ := Prod.mk.inj hloop
    refine ⟨List.nil_prefix, by simp, ?_, .inl rfl⟩
    rw [hresult, Requests.ops, List.flatMap_nil, List.append_nil]
  | cons w rest ih =>
    intro size before result ws out hloop hresult hsize
    have hstop : ([], result) = (ws, out) → ws <+: w :: rest ∧
        (∀ x ∈ ws, r.batchless x = false ∧ (r.sync x = true → sync = true)) ∧
        out.getD (ofOps first) = ofOps (before ++ r.ops ws) ∧
        (ws = [] ∨ (before ++ r.ops ws).length ≤ maxSize) := by
      intro heq
      obtain ⟨rfl, rfl⟩ := Prod.mk.inj heq
      refine ⟨List.nil_prefix, by simp, ?_, .inl rfl⟩
      rw [hresult, Requests.ops, List.flatMap_nil, List.append_nil]
    unfold groupLoop at hloop
    split_ifs at hloop with hsync
    · exact hstop hloop
    cases hbatch : r.batch w with
    | none =>
      simp only [hbatch] at hloop
      exact hstop hloop
    | some ops =>
      simp only [hbatch] at hloop
      split_ifs at hloop with hlarge
      · exact hstop hloop
      -- `tmp_batch_` starts with the first batch
      have hnext : (result.getD (WriteBatch.empty.append (ofOps first))).append (ofOps ops) =
          ofOps (before ++ ops) := by
        have hempty : WriteBatch.empty.append (ofOps first) = ofOps first :=
          WriteBatch.append_ofOps [] first
        rw [hempty, hresult, WriteBatch.append_ofOps]
      have hlen := WriteBatch.length_le_rep ops
      rw [hnext] at hloop
      obtain ⟨rfl, rfl⟩ := Prod.mk.inj hloop
      obtain ⟨hfront, hlet, hout, hfits⟩ := ih (size + (ofOps ops).rep.length) (before ++ ops)
        (some (ofOps (before ++ ops))) rfl rfl (by rw [List.length_append]; omega)
      have hops : ∀ ws, before ++ r.ops (w :: ws) = before ++ ops ++ r.ops ws := by
        intro ws
        rw [Requests.ops, List.flatMap_cons, hbatch, List.append_assoc]
        rfl
      refine ⟨(List.prefix_cons_inj w).mpr hfront, fun x hx => ?_, ?_, .inr ?_⟩
      · rcases List.mem_cons.mp hx with rfl | hx
        · refine ⟨by rw [Requests.batchless, hbatch]; rfl, fun hs => ?_⟩
          cases sync with
          | true => rfl
          | false => exact absurd (by rw [hs]; rfl) hsync
        · exact hlet x hx
      · rw [hops, hout]
      · rw [hops]
        rcases hfits with hnil | hle
        · rw [hnil, Requests.ops, List.flatMap_nil, List.append_nil, List.length_append]
          omega
        · exact hle


/-- What there is to say of every group: each member has a batch, and has sync only if the
    leader has. -/
structure Formed (r : Requests W) (g : Group W) : Prop where
  batch : ∀ w ∈ g.members, r.batchless w = false
  sync : ∀ w ∈ g.members, r.sync w = true → r.sync g.leader = true

/-- What `build_batch_group` gives, from an empty `tmp_batch_`. -/
structure Built (r : Requests W) (s : State W) (g : Group W) : Prop where
  formed : Formed r g
  queue : g.members <+: s.queue
  record : g.record = (ofOps (r.ops g.members)).setSequence (s.lastSequence + 1)
  last : g.last = (s.lastSequence + g.record.count) % 2 ^ 64
  size : g.followers = [] ∨ (r.ops g.members).length ≤ 2 ^ 20

omit [DecidableEq W] in
theorem build_spec {r : Requests W} {s : State W} {first : W} {ops : List Op} {rest : List W}
    (htmp : s.tmpBatch = .empty) (hqueue : s.queue = first :: rest) (hbatch : r.batch first = some ops) :
    Built r s (s.build r first ops rest) := by
  unfold State.build
  rw [htmp]
  dsimp only
  generalize hloop : groupLoop r (r.sync first) .empty (ofOps ops)
    (maxGroupSize (ofOps ops).rep.length) (ofOps ops).rep.length none rest = out
  obtain ⟨ws, result⟩ := out
  obtain ⟨hfront, hlet, hresult, hfits⟩ := groupLoop_spec rest _ ops none hloop rfl
    (WriteBatch.length_le_rep ops)
  have hops : r.ops (first :: ws) = ops ++ r.ops ws := by
    rw [Requests.ops, List.flatMap_cons, hbatch]
    rfl
  refine ⟨⟨fun w hw => ?_, fun w hw hs => ?_⟩, ?_, ?_, rfl, ?_⟩
  · rcases List.mem_cons.mp hw with rfl | hw
    · rw [Requests.batchless, hbatch]
      rfl
    · exact (hlet w hw).1
  · rcases List.mem_cons.mp hw with rfl | hw
    · exact hs
    · exact (hlet w hw).2 hs
  · rw [hqueue]
    exact (List.prefix_cons_inj first).mpr hfront
  · show (result.getD (ofOps ops)).setSequence _ = _
    rw [Group.members, hops, hresult]
  · rw [Group.members, hops]
    exact hfits.imp_right fun hlen => hlen.trans (maxGroupSize_le _)

/-- The loop takes the group from the queue and answers it. -/
theorem report_spec (status : Status) (rest : List W) (l : List W) :
    ∀ (w : W) (result : W → Option Status), (w :: l).Nodup →
      report (l.getLastD w) status (w :: l ++ rest) result =
        (rest, fun x => if x ∈ w :: l then some status else result x) := by
  induction l with
  | nil =>
    intro w result _
    rw [List.getLastD_nil, List.cons_append, List.nil_append, report, if_pos rfl]
    refine Prod.ext rfl (funext fun x => ?_)
    simp only [List.mem_singleton, Function.update_apply]
  | cons w' l ih =>
    intro w result hnodup
    obtain ⟨hw, hnodup⟩ := List.nodup_cons.mp hnodup
    -- the last is further on
    have hne : w ≠ l.getLastD w' := fun heq => hw (heq ▸ List.getLastD_mem_cons)
    rw [List.getLastD_cons, List.cons_append, report, if_neg hne, ih w' _ hnodup]
    refine Prod.ext rfl (funext fun x => ?_)
    dsimp only
    by_cases hx : x ∈ w' :: l
    · rw [if_pos hx, if_pos (List.mem_cons_of_mem w hx)]
    · rw [if_neg hx]
      by_cases hxw : x = w
      · rw [hxw, Function.update_self, if_pos List.mem_cons_self]
      · rw [Function.update_of_ne hxw, if_neg fun hmem => (List.mem_cons.mp hmem).elim hxw hx]

/-! ## What holds in every state -/

/-- The queue is the end of those that have joined. Before it are the groups that are told, in
    order, and whoever was answered alone; the group at hand is at its front. -/
structure Ok (r : Requests W) (s : State W) : Prop where
  nodup : s.joined.Nodup
  served : ∃ served, s.joined = served ++ s.queue ∧ (s.groups.flatMap Group.members).Sublist served ∧
    ∀ w, s.result w ≠ none → w ∈ served
  working : ∀ g, s.working = some g → g.members <+: s.queue
  formed : ∀ g ∈ s.allGroups, Formed r g
  groups : ∀ g ∈ s.groups, g.Finished ∧ ∀ w ∈ g.members, s.result w = some g.status
  acked : ∀ w, s.result w = some .ok → r.batchless w = false → ∃ g ∈ s.groups, w ∈ g.members
  tmp : (∀ g, s.working = some g → g.scratch = false) → s.tmpBatch = .empty

omit [DecidableEq W] in
theorem ok_init (r : Requests W) (n : ℕ) : Ok r (State.init n) where
  nodup := List.nodup_nil
  served := ⟨[], rfl, List.Sublist.refl _, fun _ h => absurd rfl h⟩
  working := fun g hg => by cases hg
  formed := fun g hg => absurd hg List.not_mem_nil
  groups := fun g hg => absurd hg List.not_mem_nil
  acked := fun w hw => by cases hw
  tmp := fun _ => rfl

namespace Ok

variable {r : Requests W} {s : State W} (h : Ok r s)

include h

omit [DecidableEq W] in
/-- Who is answered has left the queue. -/
theorem not_mem_queue {w : W} (hres : s.result w ≠ none) : w ∉ s.queue := by
  obtain ⟨served, hjoined, -, hserved⟩ := h.served
  exact List.disjoint_of_nodup_append (hjoined ▸ h.nodup) (hserved w hres)

omit [DecidableEq W] in
/-- The groups are in the order of joining. -/
theorem order : (s.allGroups.flatMap Group.members).Sublist s.joined := by
  obtain ⟨served, hjoined, hsub, -⟩ := h.served
  rw [hjoined, State.allGroups, List.flatMap_append]
  refine hsub.append ?_
  cases hg : s.working with
  | none => exact List.nil_sublist _
  | some g =>
    rw [Option.toList_some, List.flatMap_singleton]
    exact (h.working g hg).sublist

omit [DecidableEq W] in
/-- A step that leaves everything but the error. -/
theorem same {s' : State W} (hqueue : s'.queue = s.queue) (hjoined : s'.joined = s.joined)
    (hworking : s'.working = s.working) (htmp : s'.tmpBatch = s.tmpBatch) (hgroups : s'.groups = s.groups)
    (hresult : s'.result = s.result) : Ok r s' := by
  obtain ⟨q, j, w, l, b, t, g, res⟩ := s
  obtain ⟨q', j', w', l', b', t', g', res'⟩ := s'
  dsimp only at hqueue hjoined hworking htmp hgroups hresult
  subst hqueue hjoined hworking htmp hgroups hresult
  exact ⟨h.nodup, h.served, h.working, h.formed, h.groups, h.acked, h.tmp⟩

omit [DecidableEq W] in
theorem step_join {w : W} (hw : w ∉ s.joined) :
    Ok r { s with queue := s.queue ++ [w], joined := s.joined ++ [w] } where
  nodup := by
    refine List.nodup_append.mpr ⟨h.nodup, List.nodup_singleton w, fun x hx y hy heq => hw ?_⟩
    rwa [← List.mem_singleton.mp hy, ← heq]
  served := by
    obtain ⟨served, hjoined, hrest⟩ := h.served
    exact ⟨served, by rw [hjoined, List.append_assoc], hrest⟩
  working := fun g hg => (h.working g hg).trans (List.prefix_append _ _)
  formed := h.formed
  groups := h.groups
  acked := h.acked
  tmp := h.tmp

omit [DecidableEq W] in
theorem step_form {g : Group W} (hworking : s.working = none) (hbuilt : Built r s g) :
    Ok r { s with working := some g, tmpBatch := if g.scratch then g.record else s.tmpBatch } where
  nodup := h.nodup
  served := h.served
  working := fun g' hg' => by
    obtain rfl := Option.some.inj hg'
    exact hbuilt.queue
  formed := fun g' hg' => by
    rcases List.mem_append.mp hg' with hg' | hg'
    · exact h.formed g' (List.mem_append_left _ hg')
    · rw [List.mem_singleton.mp hg']
      exact hbuilt.formed
  groups := h.groups
  acked := h.acked
  tmp := fun hscratch => by
    dsimp only
    rw [if_neg (by rw [hscratch g rfl]; exact Bool.false_ne_true)]
    exact h.tmp fun g' hg' => by rw [hworking] at hg'; cases hg'

omit [DecidableEq W] in
theorem step_atLog {f : Group W → Option (Group W)} {s' : State W}
    (hf : ∀ g g', f g = some g' → g'.leader = g.leader ∧ g'.followers = g.followers ∧
      g'.scratch = g.scratch)
    (hstep : s.atLog f = some s') : Ok r s' := by
  obtain ⟨g, hg, hstep⟩ := Option.bind_eq_some_iff.mp hstep
  obtain ⟨g', hg', rfl⟩ := Option.map_eq_some_iff.mp hstep
  obtain ⟨hleader, hfollowers, hscratch⟩ := hf g g' hg'
  have hmembers : g'.members = g.members := by rw [Group.members, Group.members, hleader, hfollowers]
  have hformed := h.formed g (List.mem_append_right _ (by rw [hg]; exact List.mem_singleton_self g))
  refine ⟨h.nodup, h.served, fun x hx => ?_, fun x hx => ?_, h.groups, h.acked, fun hx => h.tmp fun y hy => ?_⟩
  · obtain rfl := Option.some.inj hx
    rw [hmembers]
    exact h.working g hg
  · rcases List.mem_append.mp hx with hx | hx
    · exact h.formed x (List.mem_append_left _ hx)
    · rw [List.mem_singleton.mp hx]
      exact ⟨fun w hw => hformed.batch w (hmembers ▸ hw),
        fun w hw hs => hleader ▸ hformed.sync w (hmembers ▸ hw) hs⟩
  · obtain rfl := Option.some.inj (hg.symm.trans hy)
    rw [← hscratch]
    exact hx g' rfl

/-- **The end of a group.** The writers at the front of the queue are answered; they are those
    of a group that is published, or one that is in none. -/
theorem finish {s' : State W} {w : W} {ws rest : List W} {status : Status} (gs : List (Group W))
    (hqueue : s.queue = w :: ws ++ rest) (hjoined : s'.joined = s.joined) (hqueue' : s'.queue = s.queue)
    (hresult' : s'.result = s.result) (hworking : s'.working = none) (htmp : s'.tmpBatch = .empty)
    (hgroups : s'.groups = s.groups ++ gs) (hmembers : (gs.flatMap Group.members).Sublist (w :: ws))
    (hgs : ∀ g ∈ gs, Formed r g ∧ g.Finished ∧ g.status = status)
    (hacked : status = .ok → ∀ x ∈ w :: ws, r.batchless x = false → ∃ g ∈ gs, x ∈ g.members) :
    Ok r (s'.finish (ws.getLastD w) status) := by
  obtain ⟨served, hserved, hsub, hres⟩ := h.served
  have hnodup : (w :: ws).Nodup := by
    have hq := List.Nodup.of_append_right (hserved ▸ h.nodup)
    rw [hqueue] at hq
    exact hq.of_append_left
  have hfinish : s'.finish (ws.getLastD w) status = { s' with
      queue := rest, result := fun x => if x ∈ w :: ws then some status else s.result x } := by
    rw [State.finish, hqueue', hqueue, hresult', report_spec status rest ws w s.result hnodup]
  rw [hfinish]
  -- the earlier groups are not in the queue
  have hold : ∀ g ∈ s.groups, ∀ x ∈ g.members, x ∉ w :: ws := by
    intro g hg x hx hmem
    refine h.not_mem_queue (w := x) ?_ (hqueue ▸ List.mem_append_left rest hmem)
    rw [(h.groups g hg).2 x hx]
    exact Option.some_ne_none _
  refine ⟨hjoined ▸ h.nodup, ⟨served ++ (w :: ws), ?_, ?_, fun x hx => ?_⟩, fun g hg => ?_, fun g hg => ?_,
    fun g hg => ?_, fun x hx hbatch => ?_, fun _ => htmp⟩
  · show s'.joined = served ++ (w :: ws) ++ rest
    rw [hjoined, hserved, hqueue, List.append_assoc]
  · show (s'.groups.flatMap Group.members).Sublist _
    rw [hgroups, List.flatMap_append]
    exact hsub.append hmembers
  · dsimp only at hx
    split_ifs at hx with hmem
    · exact List.mem_append_right _ hmem
    · exact List.mem_append_left _ (hres x hx)
  · exact absurd (hworking.symm.trans hg) (Option.some_ne_none g).symm
  · replace hg : g ∈ s'.groups ++ s'.working.toList := hg
    rw [hworking, hgroups, Option.toList_none, List.append_nil] at hg
    rcases List.mem_append.mp hg with hg | hg
    · exact h.formed g (List.mem_append_left _ hg)
    · exact (hgs g hg).1
  · replace hg : g ∈ s'.groups := hg
    rw [hgroups] at hg
    rcases List.mem_append.mp hg with hg | hg
    · refine ⟨(h.groups g hg).1, fun x hx => ?_⟩
      dsimp only
      rw [if_neg (hold g hg x hx), (h.groups g hg).2 x hx]
    · refine ⟨(hgs g hg).2.1, fun x hx => ?_⟩
      dsimp only
      rw [if_pos (hmembers.subset (List.mem_flatMap.mpr ⟨g, hg, hx⟩)), (hgs g hg).2.2]
  · show ∃ g ∈ s'.groups, x ∈ g.members
    rw [hgroups]
    dsimp only at hx
    split_ifs at hx with hmem
    · obtain ⟨g, hg, hxg⟩ := hacked (Option.some.inj hx) x hmem hbatch
      exact ⟨g, List.mem_append_right _ hg, hxg⟩
    · obtain ⟨g, hg, hxg⟩ := h.acked x hx hbatch
      exact ⟨g, List.mem_append_left _ hg, hxg⟩

/-- Who leads no group is answered alone. -/
theorem finish_alone {s' : State W} {first : W} {rest : List W} {status : Status}
    (hworking : s.working = none) (hqueue : s.queue = first :: rest)
    (hacked : status = .ok → r.batchless first = true) (hjoined : s'.joined = s.joined)
    (hqueue' : s'.queue = s.queue) (hresult' : s'.result = s.result) (hworking' : s'.working = s.working)
    (htmp : s'.tmpBatch = s.tmpBatch) (hgroups : s'.groups = s.groups) : Ok r (s'.finish first status) := by
  have hfront : s.queue = first :: [] ++ rest := hqueue
  refine h.finish [] hfront hjoined hqueue' hresult' (hworking'.trans hworking) ?_
    (hgroups.trans (List.append_nil _).symm) (List.nil_sublist _) (fun g hg => absurd hg List.not_mem_nil)
    fun hok x hx hbatch => ?_
  · rw [htmp]
    exact h.tmp fun g hg => by rw [hworking] at hg; cases hg
  · rw [List.mem_singleton.mp hx, hacked hok] at hbatch
    cases hbatch

theorem step_publish {s' : State W} (hstep : s.step r .publish = some s') : Ok r s' := by
  obtain ⟨g, hg, hstep⟩ := Option.bind_eq_some_iff.mp hstep
  rw [Option.ite_none_right_eq_some] at hstep
  obtain ⟨hfinished, hstep⟩ := hstep
  obtain rfl := Option.some.inj hstep
  obtain ⟨rest, hqueue⟩ := h.working g hg
  refine h.finish [g] hqueue.symm rfl rfl rfl rfl ?_ rfl ?_ (fun g' hg' => ?_) fun _ x hx _ => ?_
  · dsimp only
    cases hscratch : g.scratch with
    | true => rfl
    | false => exact h.tmp fun g' hg' => Option.some.inj (hg.symm.trans hg') ▸ hscratch
  · rw [List.flatMap_singleton]
    exact List.Sublist.refl _
  · rw [List.mem_singleton.mp hg']
    exact ⟨h.formed g (List.mem_append_right _ (by rw [hg]; exact List.mem_singleton_self g)), hfinished, rfl⟩
  · exact ⟨g, List.mem_singleton_self g, hx⟩

/-- **One step.** -/
theorem step {a : Action W} {s' : State W} (hstep : s.step r a = some s') : Ok r s' := by
  cases a with
  | join w =>
    rw [State.step, Option.ite_none_left_eq_some] at hstep
    obtain ⟨hw, hstep⟩ := hstep
    obtain rfl := Option.some.inj hstep
    exact h.step_join hw
  | group =>
    dsimp only [State.step] at hstep
    split at hstep
    · rename_i first rest hworking hqueue
      rw [Option.ite_none_right_eq_some] at hstep
      obtain ⟨-, hstep⟩ := hstep
      cases hbatch : r.batch first with
      | none =>
        rw [hbatch] at hstep
        obtain rfl := Option.some.inj hstep
        refine h.finish_alone hworking hqueue (fun _ => ?_) rfl rfl rfl rfl rfl rfl
        rw [Requests.batchless, hbatch]
        rfl
      | some ops =>
        rw [hbatch] at hstep
        obtain rfl := Option.some.inj hstep
        have htmp := h.tmp fun g hg => by rw [hworking] at hg; cases hg
        exact h.step_form hworking (build_spec htmp hqueue hbatch)
    · cases hstep
  | refuse failure recorded =>
    dsimp only [State.step] at hstep
    split at hstep
    · rename_i first rest hworking hqueue
      rw [Option.ite_none_right_eq_some] at hstep
      obtain ⟨⟨hfailure, -⟩, hstep⟩ := hstep
      obtain rfl := Option.some.inj hstep
      exact h.finish_alone hworking hqueue (fun hok => absurd hok hfailure) rfl rfl rfl rfl rfl rfl
    · cases hstep
  | append status whole =>
    refine h.step_atLog (fun g g' hg => ?_) hstep
    simp only [Option.ite_none_right_eq_some, Option.some.injEq] at hg
    obtain ⟨-, rfl⟩ := hg
    exact ⟨rfl, rfl, rfl⟩
  | flush status =>
    refine h.step_atLog (fun g g' hg => ?_) hstep
    simp only [Option.ite_none_right_eq_some, Option.some.injEq] at hg
    obtain ⟨-, rfl⟩ := hg
    exact ⟨rfl, rfl, rfl⟩
  | insert =>
    refine h.step_atLog (fun g g' hg => ?_) hstep
    simp only [Option.ite_none_right_eq_some, Option.some.injEq] at hg
    obtain ⟨-, rfl⟩ := hg
    exact ⟨rfl, rfl, rfl⟩
  | publish => exact h.step_publish hstep
  | fail failure =>
    simp only [State.step, Option.ite_none_right_eq_some, Option.some.injEq] at hstep
    obtain ⟨-, rfl⟩ := hstep
    exact h.same rfl rfl rfl rfl rfl rfl

end Ok

end GroupCommit

end Ambar
