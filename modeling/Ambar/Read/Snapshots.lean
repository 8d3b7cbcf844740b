import Ambar.Lib.OrderedSet
import Ambar.Lib.Trace
import Ambar.Format.InternalKey

/-!
# Snapshots

Model of `DBImpl::get_snapshot` and `release_snapshot` (`src/db_impl.cpp`,
lines 992–1027). The engine keeps the set of the sequences held and the snapshot
objects; two snapshots may share a sequence, which leaves the set only with the
last of them. A snapshot is known by its address.

* `SnapshotState.Ok.step`, `SnapshotState.Ok.run`: the set holds exactly the
  sequences of the objects, whatever the order of the calls.
* `SnapshotState.Ok.smallest_le`: the smallest snapshot of a compaction is at most
  every live one and the last sequence.
-/

namespace Ambar

/-- `snapshots_` and `snapshot_objects_` (`src/db_impl.hpp`, lines 154–155); an
    object is its address and its sequence. -/
structure Snapshots where
  sequences : Lib.OrderedSet (id : ℕ → ℕ)
  objects : List (ℕ × ℕ)

namespace Snapshots

/-- No snapshot. -/
def empty : Snapshots := ⟨Lib.OrderedSet.empty, []⟩

/-- `get_snapshot` (lines 992–999), the object at `address`. -/
def getSnapshot (s : Snapshots) (address lastSequence : ℕ) : Snapshots :=
  ⟨s.sequences.insert lastSequence, s.objects ++ [(address, lastSequence)]⟩

/-- `release_snapshot` (lines 1001–1027) of the object at `address`. -/
def releaseSnapshot (s : Snapshots) (address : ℕ) : Option Snapshots :=
  (s.objects.find? fun o => decide (o.1 = address)).map fun o =>
    let anotherHoldsIt := s.objects.any fun held =>
      decide (held.1 ≠ address) && decide (held.2 = o.2)
    ⟨if anotherHoldsIt then s.sequences else s.sequences.erase o.2,
      s.objects.filter fun held => decide (held.1 ≠ address)⟩

/-- The smallest snapshot of a compaction (lines 1135–1137). -/
def smallestSnapshot (s : Snapshots) (lastSequence : ℕ) : ℕ :=
  s.sequences.toList.head?.getD lastSequence

end Snapshots

/-! ## Histories of calls -/

/-- What the calls read and change. -/
structure SnapshotState where
  lastSequence : ℕ
  snapshots : Snapshots

/-- A call, or a write of `count` operations in between. -/
inductive SnapshotCall where
  | write (count : ℕ)
  | getSnapshot (address : ℕ)
  | releaseSnapshot (address : ℕ)
deriving DecidableEq, Repr

/-- One call. A new object has an address of its own, an object is released once,
    and writes stay below `kMaxSequenceNumber`. -/
def SnapshotState.step (s : SnapshotState) : SnapshotCall → Option SnapshotState
  | .write count =>
    if s.lastSequence + count < kMaxSequenceNumber then
      some { s with lastSequence := s.lastSequence + count }
    else none
  | .getSnapshot address =>
    if address ∈ s.snapshots.objects.map (·.1) then none
    else some { s with snapshots := s.snapshots.getSnapshot address s.lastSequence }
  | .releaseSnapshot address =>
    (s.snapshots.releaseSnapshot address).map fun snapshots => { s with snapshots := snapshots }

/-- The state of an engine just opened. -/
def SnapshotState.init (lastSequence : ℕ) : SnapshotState := ⟨lastSequence, .empty⟩

/-- The set and the objects agree, and hold no sequence above the last. -/
structure Snapshots.Ok (s : Snapshots) (lastSequence : ℕ) : Prop where
  mem_iff : ∀ q, q ∈ s.sequences ↔ ∃ o ∈ s.objects, o.2 = q
  le : ∀ o ∈ s.objects, o.2 ≤ lastSequence
  nodup : (s.objects.map (·.1)).Nodup

namespace Snapshots.Ok

variable {s s' : Snapshots} {lastSequence : ℕ}

theorem empty (lastSequence : ℕ) : Snapshots.empty.Ok lastSequence where
  mem_iff := by simp [Snapshots.empty]
  le := by simp [Snapshots.empty]
  nodup := by simp [Snapshots.empty]

theorem mono (h : s.Ok lastSequence) {n : ℕ} (hn : lastSequence ≤ n) : s.Ok n :=
  ⟨h.mem_iff, fun o ho => (h.le o ho).trans hn, h.nodup⟩

theorem getSnapshot (h : s.Ok lastSequence) {address : ℕ}
    (ha : address ∉ s.objects.map (·.1)) : (s.getSnapshot address lastSequence).Ok lastSequence where
  mem_iff q := by
    rw [Snapshots.getSnapshot, Lib.OrderedSet.mem_insert Function.injective_id, h.mem_iff]
    simp only [List.mem_append, List.mem_singleton, or_and_right, exists_or, exists_eq_left]
    rw [or_comm, eq_comm]
  le o ho := by
    rcases List.mem_append.mp ho with ho | ho
    · exact h.le o ho
    · rw [List.mem_singleton.mp ho]
  nodup := by
    rw [Snapshots.getSnapshot, List.map_append, List.map_singleton]
    refine List.nodup_append.mpr ⟨h.nodup, by simp, fun a ha' b hb heq => ha ?_⟩
    rw [heq, List.mem_singleton.mp hb] at ha'
    exact ha'

theorem releaseSnapshot (h : s.Ok lastSequence) {address : ℕ}
    (hr : s.releaseSnapshot address = some s') : s'.Ok lastSequence := by
  obtain ⟨⟨a, n⟩, hfind, rfl⟩ := Option.map_eq_some_iff.mp hr
  have ho := List.mem_of_find?_eq_some hfind
  obtain rfl : a = address := by simpa using List.find?_some hfind
  refine ⟨fun q => ?_, fun o ho => h.le o (List.mem_filter.mp ho).1,
    h.nodup.sublist (List.filter_sublist.map _)⟩
  dsimp only
  -- the other objects of a sequence other than the released one, or of that one
  have hothers : (∃ o ∈ s.objects.filter (fun held => decide (held.1 ≠ a)), o.2 = q) ↔
      ∃ o ∈ s.objects, o.1 ≠ a ∧ o.2 = q := by
    simp [and_assoc]
  rw [hothers]
  split_ifs with hany
  · rw [h.mem_iff]
    obtain ⟨o', ho', hp⟩ := List.any_eq_true.mp hany
    simp only [Bool.and_eq_true, decide_eq_true_eq] at hp
    constructor
    · rintro ⟨o, hom, rfl⟩
      by_cases hoa : o.1 = a
      · have : o = (a, n) := List.inj_on_of_nodup_map h.nodup hom ho hoa
        exact ⟨o', ho', hp.1, by rw [hp.2, this]⟩
      · exact ⟨o, hom, hoa, rfl⟩
    · rintro ⟨o, hom, -, rfl⟩
      exact ⟨o, hom, rfl⟩
  · rw [Lib.OrderedSet.mem_erase Function.injective_id, h.mem_iff]
    simp only [List.any_eq_true, Bool.and_eq_true, decide_eq_true_eq, not_exists, not_and] at hany
    constructor
    · rintro ⟨⟨o, hom, rfl⟩, hne⟩
      refine ⟨o, hom, fun hoa => hne ?_, rfl⟩
      rw [List.inj_on_of_nodup_map h.nodup hom ho hoa]
    · rintro ⟨o, hom, hoa, rfl⟩
      exact ⟨⟨o, hom, rfl⟩, hany o hom hoa⟩

/-- What every reader that counts is at least. -/
theorem smallest_le (h : s.Ok lastSequence) :
    s.smallestSnapshot lastSequence ≤ lastSequence ∧
      ∀ o ∈ s.objects, s.smallestSnapshot lastSequence ≤ o.2 := by
  unfold Snapshots.smallestSnapshot
  cases hh : s.sequences.toList.head? with
  | none =>
    have hnil : s.sequences.toList = [] := List.head?_eq_none_iff.mp hh
    refine ⟨le_rfl, fun o ho => ?_⟩
    have : o.2 ∈ s.sequences := (h.mem_iff o.2).mpr ⟨o, ho, rfl⟩
    rw [Lib.OrderedSet.mem_def, hnil] at this
    simp at this
  | some q =>
    have hq : q ∈ s.sequences := List.mem_of_mem_head? hh
    obtain ⟨o, ho, rfl⟩ := (h.mem_iff q).mp hq
    exact ⟨h.le o ho, fun o' ho' => Lib.OrderedSet.head_le hh ((h.mem_iff o'.2).mpr ⟨o', ho', rfl⟩)⟩

/-- A bound of the live snapshots and the last sequence bounds the smallest. -/
theorem le_smallest (h : s.Ok lastSequence) {m : ℕ} (hobjects : ∀ o ∈ s.objects, m ≤ o.2)
    (hlast : m ≤ lastSequence) : m ≤ s.smallestSnapshot lastSequence := by
  unfold Snapshots.smallestSnapshot
  cases hh : s.sequences.toList.head? with
  | none => exact hlast
  | some q =>
    obtain ⟨o, ho, rfl⟩ := (h.mem_iff q).mp (List.mem_of_mem_head? hh)
    exact hobjects o ho

end Snapshots.Ok

/-- What holds after every history of calls. -/
structure SnapshotState.Ok (s : SnapshotState) : Prop where
  snapshots : s.snapshots.Ok s.lastSequence
  lastSequence_lt : s.lastSequence < kMaxSequenceNumber

namespace SnapshotState.Ok

variable {s s' : SnapshotState}

theorem init {lastSequence : ℕ} (h : lastSequence < kMaxSequenceNumber) :
    (SnapshotState.init lastSequence).Ok := ⟨Snapshots.Ok.empty _, h⟩

/-- One call. -/
theorem step (h : s.Ok) {call : SnapshotCall} (hs : s.step call = some s') : s'.Ok := by
  cases call with
  | write count =>
    simp only [SnapshotState.step, Option.ite_none_right_eq_some, Option.some.injEq] at hs
    obtain ⟨hlt, rfl⟩ := hs
    exact ⟨h.snapshots.mono (by simp), hlt⟩
  | getSnapshot address =>
    simp only [SnapshotState.step, Option.ite_none_left_eq_some, Option.some.injEq] at hs
    obtain ⟨ha, rfl⟩ := hs
    exact ⟨h.snapshots.getSnapshot ha, h.lastSequence_lt⟩
  | releaseSnapshot address =>
    obtain ⟨snapshots, hr, rfl⟩ := Option.map_eq_some_iff.mp hs
    exact ⟨h.snapshots.releaseSnapshot hr, h.lastSequence_lt⟩

/-- Every history. -/
theorem run {calls : List SnapshotCall} (h : s.Ok)
    (hr : Lib.run SnapshotState.step s calls = some s') : s'.Ok :=
  Lib.run_invariant SnapshotState.step (fun _ _ _ hs hstep => hs.step hstep) h hr

end SnapshotState.Ok

end Ambar
