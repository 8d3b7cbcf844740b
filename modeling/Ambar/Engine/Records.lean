import Ambar.Engine.Step

/-!
# The records of the logs

The records appended to the logs are the history of a database: the logs' numbers do
not fall along it and the sequences rise. Which part of it the tables of a version
stand for is told by a log number: the records of the logs below it.

* `Ordered.lt_of_log_lt`: a record of a later log is newer.
* `Ordered.append`, `below_append`, `between_append`: one more record.
-/

namespace Ambar

/-- Along the records the logs' numbers do not fall and the sequences rise. -/
def Ordered (records : List (ℕ × LogRecord)) : Prop :=
  records.Pairwise fun a b =>
    a.1 ≤ b.1 ∧ ∀ x ∈ a.2.entries, ∀ y ∈ b.2.entries, x.sequence < y.sequence

/-- The entries of the records of the logs below `n`. -/
def below (records : List (ℕ × LogRecord)) (n : ℕ) : Set Entry :=
  {e | ∃ r ∈ records, r.1 < n ∧ e ∈ r.2.entries}

/-- The entries of the records of the logs from `m` up to `n`. -/
def between (records : List (ℕ × LogRecord)) (m n : ℕ) : Set Entry :=
  {e | ∃ r ∈ records, m ≤ r.1 ∧ r.1 < n ∧ e ∈ r.2.entries}

variable {records : List (ℕ × LogRecord)}

theorem Ordered.lt_of_log_lt (h : Ordered records) {a b : ℕ × LogRecord} (ha : a ∈ records)
    (hb : b ∈ records) (hlt : a.1 < b.1) :
    ∀ x ∈ a.2.entries, ∀ y ∈ b.2.entries, x.sequence < y.sequence := by
  let R : ℕ × LogRecord → ℕ × LogRecord → Prop := fun a b =>
    (a.1 < b.1 → ∀ x ∈ a.2.entries, ∀ y ∈ b.2.entries, x.sequence < y.sequence) ∧
      (b.1 < a.1 → ∀ x ∈ b.2.entries, ∀ y ∈ a.2.entries, x.sequence < y.sequence)
  have hsymm : Std.Symm R := ⟨fun a b hab => hab.symm⟩
  have hall : ∀ {a b : ℕ × LogRecord}, a ∈ records → b ∈ records → R a b := by
    refine @fun a b ha hb => List.Pairwise.forall_of_forall (R := R) ?_ (h.imp ?_) ha hb
    · exact fun a _ => ⟨fun hlt => absurd hlt (lt_irrefl _), fun hlt => absurd hlt (lt_irrefl _)⟩
    · rintro a b ⟨hle, hseq⟩
      exact ⟨fun _ => hseq, fun hlt => by omega⟩
  exact (hall ha hb).1 hlt

/-- The entries of the whole history, oldest first. -/
theorem Ordered.sequences (h : Ordered records) :
    (records.flatMap fun r => r.2.entries).Pairwise fun a b => a.sequence < b.sequence := by
  refine List.pairwise_flatMap.mpr ⟨fun r _ => batchEntries_sorted _ _, h.imp fun hab => hab.2⟩

theorem Ordered.append (h : Ordered records) {n : ℕ} {r : LogRecord}
    (hlog : ∀ a ∈ records, a.1 ≤ n)
    (hseq : ∀ a ∈ records, ∀ x ∈ a.2.entries, x.sequence < r.sequence) :
    Ordered (records ++ [(n, r)]) := by
  refine List.pairwise_append.mpr ⟨h, List.pairwise_singleton _ _, fun a ha b hb => ?_⟩
  rw [List.mem_singleton.mp hb]
  refine ⟨hlog a ha, fun x hx y hy => ?_⟩
  exact (hseq a ha x hx).trans_le (batchEntries_bounds hy).1

theorem below_append {n m : ℕ} (h : n ≤ m) (r : LogRecord) :
    below (records ++ [(m, r)]) n = below records n := by
  ext e
  constructor
  · rintro ⟨a, ha, hlt, he⟩
    rcases List.mem_append.mp ha with ha | ha
    · exact ⟨a, ha, hlt, he⟩
    · rw [List.mem_singleton.mp ha] at hlt
      simp only at hlt
      omega
  · rintro ⟨a, ha, hlt, he⟩
    exact ⟨a, List.mem_append_left _ ha, hlt, he⟩

theorem between_append {l n m : ℕ} (h : n ≤ m) (r : LogRecord) :
    between (records ++ [(m, r)]) l n = between records l n := by
  ext e
  constructor
  · rintro ⟨a, ha, hle, hlt, he⟩
    rcases List.mem_append.mp ha with ha | ha
    · exact ⟨a, ha, hle, hlt, he⟩
    · rw [List.mem_singleton.mp ha] at hlt
      simp only at hlt
      omega
  · rintro ⟨a, ha, hle, hlt, he⟩
    exact ⟨a, List.mem_append_left _ ha, hle, hlt, he⟩

theorem between_mono {l n n' : ℕ} {e : Entry} (h : e ∈ between records l n) (hn : n ≤ n') :
    e ∈ between records l n' := by
  obtain ⟨r, hr, hle, hlt, he⟩ := h
  exact ⟨r, hr, hle, by omega, he⟩

/-- Creating a log of a number no record has leaves the records. -/
theorem Disk.createLog_records {d : Disk} {n : ℕ} (h : ∀ r ∈ d.records, r.1 ≠ n) :
    (d.createLog n).records = d.records :=
  List.filter_eq_self.mpr fun r hr => by simpa using h r hr

end Ambar
