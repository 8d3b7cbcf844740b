import Ambar.Lib.OrderedSet
import Ambar.Format.InternalKey

/-!
# Batches, log records and memtables

Model of `src/write_batch.cpp` and of the contents of `src/memtable.cpp`. A batch is
a list of operations; in the log it carries the sequence of its first operation,
and inserting it into a memtable hands out consecutive sequences. A memtable is the
set of its entries in internal-key order.

* `MemTable.mem_insertAll`: what a memtable holds after a batch.
-/

namespace Ambar

/-- One operation of a batch. -/
inductive Op where
  | put (key value : Bytes)
  | del (key : Bytes)
deriving DecidableEq, Repr

namespace Op

/-- `MemTableInserter` (lines 128–147): the entry of an operation. -/
def entry (sequence : ℕ) : Op → Entry
  | put key value => ⟨makeInternalKey key sequence .value, value⟩
  | del key => ⟨makeInternalKey key sequence .deletion, []⟩

@[simp] theorem entry_sequence (n : ℕ) (op : Op) : (op.entry n).sequence = n := by
  cases op <;> simp [entry, Entry.sequence]

theorem entry_wellFormed (op : Op) {n : ℕ} (hn : n ≤ kMaxSequenceNumber) :
    (op.entry n).key.WellFormed := by
  cases op <;> exact makeInternalKey_wellFormed _ _ hn

end Op

/-- The entries of the operations from the sequence `first` on. -/
def batchEntries : (first : ℕ) → List Op → List Entry
  | _, [] => []
  | first, op :: ops => op.entry first :: batchEntries (first + 1) ops

/-- A record of the log: the sequence in its header and its operations. -/
structure LogRecord where
  sequence : ℕ
  ops : List Op
deriving DecidableEq, Repr

/-- What `insert_into` (lines 151–155) inserts. -/
def LogRecord.entries (r : LogRecord) : List Entry := batchEntries r.sequence r.ops

/-- The sequence after the record's last. -/
def LogRecord.next (r : LogRecord) : ℕ := r.sequence + r.ops.length

theorem batchEntries_bounds {ops : List Op} :
    ∀ {first : ℕ} {e : Entry}, e ∈ batchEntries first ops →
      first ≤ e.sequence ∧ e.sequence < first + ops.length := by
  induction ops with
  | nil => simp [batchEntries]
  | cons op ops ih =>
    intro first e he
    rcases List.mem_cons.mp he with rfl | he
    · simp
    · have := ih he
      simp only [List.length_cons]
      omega

theorem batchEntries_sorted (ops : List Op) :
    ∀ first, (batchEntries first ops).Pairwise fun a b => a.sequence < b.sequence := by
  induction ops with
  | nil => exact fun _ => List.Pairwise.nil
  | cons op ops ih =>
    intro first
    refine List.pairwise_cons.mpr ⟨fun e he => ?_, ih (first + 1)⟩
    have := (batchEntries_bounds he).1
    simp only [Op.entry_sequence]
    omega

theorem batchEntries_wellFormed {ops : List Op} :
    ∀ {first : ℕ}, first + ops.length ≤ kMaxSequenceNumber →
      ∀ e ∈ batchEntries first ops, e.key.WellFormed := by
  induction ops with
  | nil => simp [batchEntries]
  | cons op ops ih =>
    intro first h e he
    simp only [List.length_cons] at h
    rcases List.mem_cons.mp he with rfl | he
    · exact op.entry_wellFormed (by omega)
    · exact ih (by omega) e he

/-! ## Memtables -/

/-- `class MemTable`: its entries in the order of the skip list. -/
abbrev MemTable := Lib.OrderedSet Entry.key

/-- Inserting entries one by one. -/
def MemTable.insertAll (mem : MemTable) (entries : List Entry) : MemTable :=
  entries.foldl Lib.OrderedSet.insert mem

theorem MemTable.mem_insertAll {entries : List Entry} :
    ∀ {mem : MemTable} {e : Entry},
      (∀ a ∈ entries, ∀ b ∈ mem, a.key ≠ b.key) →
      (entries.map Entry.key).Nodup →
      (e ∈ mem.insertAll entries ↔ e ∈ mem ∨ e ∈ entries) := by
  induction entries with
  | nil => simp [MemTable.insertAll]
  | cons a entries ih =>
    intro mem e hne hnodup
    obtain ⟨ha, hrest⟩ := List.nodup_cons.mp hnodup
    have hins : ∀ x, x ∈ mem.insert a ↔ x = a ∨ x ∈ mem := fun x =>
      Lib.mem_insertByKey fun b hb => (hne a (by simp) b hb).symm
    have hstep : e ∈ MemTable.insertAll mem (a :: entries) ↔
        e ∈ mem.insert a ∨ e ∈ entries := by
      refine ih (fun x hx b hb => ?_) hrest
      rcases (hins b).mp hb with rfl | hb
      · exact fun heq => ha (List.mem_map.mpr ⟨x, hx, heq⟩)
      · exact hne x (List.mem_cons_of_mem _ hx) b hb
    rw [hstep, hins, List.mem_cons]
    tauto

end Ambar
