import Ambar.Lib.Cursor
import Ambar.Version.Invariant

/-!
# Internal iterators

The sources a merging iterator combines: memtables and single tables, read as
sorted lists, and whole levels, read by a two-level iterator over their files
(`LevelFileNumIterator`, `src/version_set.cpp`, lines 110–157,
`src/two_level_iterator.cpp`, `src/merger.cpp`). With no child or one child the
code uses an empty iterator or the child itself, which walk as the merging
iterator over them does.

* `internalEntries_spec`: walked from the first entry to the end, the merging
  iterator returns the entries of its sources in the order of their keys, if no
  key is held twice.
-/

namespace Ambar

/-- A child of a merging iterator. -/
inductive Source where
  | list (entries : List Entry)
  | level (files : List FileMetaData)

namespace Source

/-- The entries of a source in the order it holds them. -/
def entries (tables : Tables) : Source → List Entry
  | list entries => entries
  | level files => files.flatMap fun f => tables f.number

/-- A new iterator over a source. -/
def newIterator : Source → Lib.ListPos Entry ⊕ Lib.ChainPos FileMetaData Entry
  | list entries => Sum.inl (Lib.ListPos.new entries)
  | level files => Sum.inr (Lib.ChainPos.new files)

end Source

/-- The iterators of the sources. -/
def sourceCursor (tables : Tables) :
    Lib.Cursor (Lib.ListPos Entry ⊕ Lib.ChainPos FileMetaData Entry) Entry InternalKey :=
  (Lib.listCursor Entry.key).sum
    (Lib.chainCursor Entry.key (fun f : FileMetaData => tables f.number) findFile)

/-- The states of a merging iterator. -/
abbrev InternalIterator := Lib.MergePos (Lib.ListPos Entry ⊕ Lib.ChainPos FileMetaData Entry)

/-- The operations of a merging iterator. -/
def internalCursor (tables : Tables) : Lib.Cursor InternalIterator Entry InternalKey :=
  Lib.mergeCursor Entry.key (sourceCursor tables)

/-- `new_merging_iterator` over new iterators of the sources. -/
def newMergingIterator (sources : List Source) : InternalIterator :=
  ⟨sources.map Source.newIterator, none, .forward⟩

/-- What a merging iterator returns from `seek_to_first` to the end. -/
def internalEntries (tables : Tables) (sources : List Source) : List Entry :=
  (internalCursor tables).drain (sources.flatMap (Source.entries tables)).length
    ((internalCursor tables).seekToFirst (newMergingIterator sources))

theorem yields_source (tables : Tables) (source : Source) :
    (sourceCursor tables).Yields ((sourceCursor tables).seekToFirst source.newIterator)
      (source.entries tables) := by
  cases source with
  | list es => exact Lib.Cursor.yields_inl (Lib.yields_listCursor_first Entry.key (Lib.ListPos.new es))
  | level files => exact Lib.Cursor.yields_inr (Lib.yields_chain Entry.key _ _ files)

theorem internalEntries_spec {tables : Tables} {sources : List Source}
    (hs : ∀ source ∈ sources, Entry.Sorted (source.entries tables))
    (hnodup : ((sources.flatMap (Source.entries tables)).map Entry.key).Nodup) :
    (internalCursor tables).Yields
        ((internalCursor tables).seekToFirst (newMergingIterator sources))
        (internalEntries tables sources) ∧
      Entry.Sorted (internalEntries tables sources) ∧
      ∀ e, e ∈ internalEntries tables sources ↔
        ∃ source ∈ sources, e ∈ source.entries tables := by
  obtain ⟨m, hy, hperm, hsorted⟩ := Lib.yields_merge Entry.key sources Source.newIterator
    (Source.entries tables) (fun source _ => yields_source tables source)
    (fun source hm => (hs source hm).imp fun h => h.le)
  have hm : internalEntries tables sources = m := Lib.Cursor.drain_eq hy hperm.length_eq.le
  rw [hm]
  refine ⟨hy, ?_, fun e => ?_⟩
  · have hne : (m.map Entry.key).Nodup := (hperm.map Entry.key).nodup_iff.mpr hnodup
    rw [List.Nodup, List.pairwise_map] at hne
    exact (hsorted.and hne).imp fun h => lt_of_le_of_ne h.1 h.2
  · rw [hperm.mem_iff, List.mem_flatMap]

/-! ## Sources of files -/

/-- The entries of a disjoint run of files are sorted. -/
theorem sorted_level {tables : Tables} {files : List FileMetaData} (hd : Disjoint files)
    (hf : ∀ f ∈ files, FileOk tables f) : Entry.Sorted ((Source.level files).entries tables) := by
  refine List.pairwise_flatMap.mpr ⟨fun f hm => (hf f hm).sorted, ?_⟩
  refine List.Pairwise.imp_of_mem ?_ hd
  intro f g hfm hgm hlt a ha b hb
  exact ((hf f hfm).le_largest ha).trans_lt (hlt.trans_le ((hf g hgm).smallest_le hb))

theorem nodup_of_sortedBy {l : List FileMetaData} (h : Lib.SortedBy bySmallestKey l) : l.Nodup :=
  List.Pairwise.imp (fun hlt => fun heq => by rw [heq] at hlt; exact lt_irrefl _ hlt) h

theorem Entry.Sorted.nodup_keys {es : List Entry} (h : Entry.Sorted es) : (es.map Entry.key).Nodup :=
  List.pairwise_map.mpr (h.imp fun h => h.ne)

/-- Sources that share no key, each sorted, hold no key twice. -/
theorem nodup_sources {tables : Tables} {sources : List Source}
    (hs : ∀ source ∈ sources, Entry.Sorted (source.entries tables))
    (hd : sources.Pairwise fun s t => ∀ a ∈ s.entries tables, ∀ b ∈ t.entries tables,
      a.key ≠ b.key) :
    ((sources.flatMap (Source.entries tables)).map Entry.key).Nodup := by
  rw [List.map_flatMap]
  refine List.nodup_flatMap.mpr ⟨fun source hm => (hs source hm).nodup_keys, hd.imp ?_⟩
  intro s t h
  simp only [Function.onFun, List.disjoint_left, List.mem_map]
  rintro k ⟨a, ha, rfl⟩ ⟨b, hb, hk⟩
  exact h a ha b hb hk.symm

end Ambar
