import Ambar.Format.Readers
import Ambar.Version.Edit

/-!
# Records of the manifest nobody wrote

`VersionEdit::decode_from` (`src/version_edit.cpp`, lines 92–223) on records that were cut, or
made by hand.

Results:
* `decodeFrom_fits`: whatever the bytes, an edit that is accepted fits the widths of the
  encoding; so it is written back and read again as it is.
* `decodeLoop_cut`: a prefix of encoded fields is refused unless it ends between two fields.
* `VersionEdit.record_roundtrip`: both, with the reading back of what was written.
-/

namespace Ambar

/-! ## Cut records -/

theorem reads_getLevel {level : ℕ} (h : level < kNumLevels) :
    Lib.Reads getLevel (putVarint level) level where
  whole := getLevel_put h
  cut p hp hne := by
    have h7 : level < 7 := h
    have hget : getVarint32 p = none := (reads_getVarint32 (by omega)).cut p hp hne
    rw [getLevel, hget]
    rfl

theorem reads_toBytes {k : InternalKey} (h : k.Fits) :
    Lib.Reads getLengthPrefixed (putLengthPrefixed k.toBytes) k.toBytes :=
  reads_getLengthPrefixed (by simpa [InternalKey.toBytes] using h.2)

theorem reads_getNewFile {level : ℕ} {file : FileMetaData} (h : (EditField.newFile level file).Fits) :
    Lib.Reads getNewFile (EditField.newFile level file).payload
      (level, file.number, file.fileSize, file.smallest.toBytes, file.largest.toBytes) := by
  obtain ⟨hl, hn, hs, hsm, hla⟩ := h
  rw [EditField.payload]
  simp only [List.append_assoc]
  -- the readers of the five parts, the last first
  let getLargest (level number fileSize : ℕ) (smallest input : Bytes) :=
    (getLengthPrefixed input).bind fun r => some ((level, number, fileSize, smallest, r.1), r.2)
  let getSmallest (level number fileSize : ℕ) (input : Bytes) :=
    (getLengthPrefixed input).bind fun r => getLargest level number fileSize r.1 r.2
  let getFileSize (level number : ℕ) (input : Bytes) :=
    (getVarint64 input).bind fun r => getSmallest level number r.1 r.2
  let getNumber (level : ℕ) (input : Bytes) :=
    (getVarint64 input).bind fun r => getFileSize level r.1 r.2
  have hlargest := (reads_toBytes hla).map
    fun largest => (level, file.number, file.fileSize, file.smallest.toBytes, largest)
  have hsmallest := (reads_toBytes hsm).bind (getLargest level file.number file.fileSize) hlargest
  have hfileSize := (reads_getVarint64 hs).bind (getSmallest level file.number) hsmallest
  exact (reads_getLevel hl).bind getNumber
    ((reads_getVarint64 hn).bind (getFileSize level) hfileSize)

/-- A field that is cut behind its tag is refused. -/
theorem decodeField_cut {field : EditField} (h : field.Fits) {p : Bytes} (hp : p <+: field.payload)
    (hne : p ≠ field.payload) : ∃ failure, decodeField field.tag p = .error failure := by
  cases field with
  | comparator name =>
    have hcut := (reads_getLengthPrefixed h).cut p hp hne
    exact ⟨_, by rw [EditField.tag, decodeField, hcut]; rfl⟩
  | logNumber n | prevLogNumber n | nextFileNumber n | lastSequence n =>
    have hcut := (reads_getVarint64 h).cut p hp hne
    exact ⟨_, by rw [EditField.tag, decodeField, hcut]; rfl⟩
  | compactPointer level key =>
    have hcut := ((reads_getLevel h.1).bind
      (fun level input => (getLengthPrefixed input).bind fun r => some ((level, r.1), r.2))
      ((reads_toBytes h.2).map fun field => (level, field))).cut p hp hne
    refine ⟨"compaction pointer", ?_⟩
    rw [EditField.tag, decodeField]
    dsimp only [Option.bind_eq_bind] at hcut ⊢
    rw [hcut]
  | deletedFile level n =>
    have hcut := ((reads_getLevel h.1).bind
      (fun level input => (getVarint64 input).bind fun r => some ((level, r.1), r.2))
      ((reads_getVarint64 h.2).map fun number => (level, number))).cut p hp hne
    refine ⟨"deleted file", ?_⟩
    rw [EditField.tag, decodeField]
    exact congrArg (fun o => readField o _ _) hcut
  | newFile level file =>
    have hcut := (reads_getNewFile h).cut p hp hne
    exact ⟨_, by rw [EditField.tag, decodeField, hcut]⟩

/-- A prefix of encoded fields is refused, or it ends between two of them. -/
theorem decodeLoop_cut {fs : List EditField} (h : ∀ field ∈ fs, field.Fits) :
    ∀ (fuel : ℕ) (edit : VersionEdit) {b : Bytes}, b <+: fs.flatMap EditField.encode →
      (∃ failure, decodeLoop fuel edit b = .error failure) ∨
        ∃ n ≤ fs.length, b = (fs.take n).flatMap EditField.encode := by
  induction fs with
  | nil =>
    intro fuel edit b hb
    exact Or.inr ⟨0, le_rfl, List.prefix_nil.mp hb⟩
  | cons field fs ih =>
    intro fuel edit b hb
    have hfield := h field List.mem_cons_self
    have htag : Lib.Reads getVarint32 (putVarint field.tag) field.tag :=
      reads_getVarint32 (by cases field <;> simp [EditField.tag])
    rw [List.flatMap_cons] at hb
    cases fuel with
    | zero => exact Or.inl ⟨_, rfl⟩
    | succ fuel =>
      by_cases hnil : b = []
      · exact Or.inr ⟨0, Nat.zero_le _, hnil⟩
      rcases Lib.prefix_append_cases hb with ⟨hcut, hne⟩ | ⟨q, rfl, hq⟩
      · left
        rw [decodeLoop]
        rcases Lib.prefix_append_cases hcut with ⟨htp, htne⟩ | ⟨q, rfl, hq⟩
        · -- cut inside the tag
          rw [htag.cut b htp htne]
          exact ⟨_, if_neg hnil⟩
        · obtain ⟨failure, hfail⟩ := decodeField_cut hfield hq
            (fun heq => hne (by rw [heq, EditField.encode]))
          rw [htag.whole]
          exact ⟨failure, by simp only [hfail]⟩
      · rw [decodeLoop, getVarint32_encode]
        simp only [decodeField_payload hfield]
        refine (ih (fun f hf => h f (List.mem_cons_of_mem _ hf)) fuel _ hq).imp_right ?_
        rintro ⟨n, hn, rfl⟩
        exact ⟨n + 1, Nat.succ_le_succ hn, by rw [List.take_succ_cons, List.flatMap_cons]⟩

/-! ## Records made by hand -/

theorem InternalKey.fits_of_ofBytes {b : Bytes} {k : InternalKey} (hb : b.length < 2 ^ 32)
    (h : InternalKey.ofBytes b = some k) : k.Fits := by
  rw [InternalKey.ofBytes] at h
  split_ifs at h with hlen
  cases h
  have htrailer := decodeFixed_lt (b.drop (b.length - 8))
  rw [List.length_drop, show b.length - (b.length - 8) = 8 by omega] at htrailer
  refine ⟨by simpa using htrailer, ?_⟩
  rw [List.length_take]
  omega

theorem getLevel_lt {input rest : Bytes} {level : ℕ} (h : getLevel input = some (level, rest)) :
    level < kNumLevels := by
  obtain ⟨⟨value, input'⟩, -, h⟩ := Option.bind_eq_some_iff.mp h
  dsimp only at h
  split_ifs at h with hle
  cases h
  exact not_le.mp hle

theorem readField_eq_ok {α : Type} {value : Option (α × Bytes)} {make : α → EditField}
    {failure : String} {r : EditField × Bytes} (h : readField value make failure = .ok r) :
    ∃ a rest, value = some (a, rest) ∧ r.1 = make a := by
  match value, h with
  | some (a, rest), h =>
    cases h
    exact ⟨a, rest, rfl, rfl⟩

/-- A field that is accepted fits. -/
theorem decodeField_fits {tag : ℕ} {input rest : Bytes} {field : EditField}
    (h : decodeField tag input = .ok (field, rest)) : field.Fits := by
  unfold decodeField at h
  split at h
  · obtain ⟨name, _, hget, rfl⟩ := readField_eq_ok h
    exact getLengthPrefixed_lt hget
  · obtain ⟨n, _, hget, rfl⟩ := readField_eq_ok h
    exact getVarint64_lt hget
  · obtain ⟨n, _, hget, rfl⟩ := readField_eq_ok h
    exact getVarint64_lt hget
  · obtain ⟨n, _, hget, rfl⟩ := readField_eq_ok h
    exact getVarint64_lt hget
  · obtain ⟨n, _, hget, rfl⟩ := readField_eq_ok h
    exact getVarint64_lt hget
  · -- a compaction pointer
    split at h
    · exact nomatch h
    · rename_i level bytes input' hget
      obtain ⟨⟨level', input₁⟩, hlevel, hget⟩ := Option.bind_eq_some_iff.mp hget
      obtain ⟨⟨bytes', input₂⟩, hbytes, hget⟩ := Option.bind_eq_some_iff.mp hget
      cases hget
      split at h
      · exact nomatch h
      · rename_i key hkey
        cases h
        exact ⟨getLevel_lt hlevel, InternalKey.fits_of_ofBytes (getLengthPrefixed_lt hbytes) hkey⟩
  · -- a deleted file
    obtain ⟨⟨level, n⟩, _, hget, rfl⟩ := readField_eq_ok h
    obtain ⟨⟨level', input₁⟩, hlevel, hget⟩ := Option.bind_eq_some_iff.mp hget
    obtain ⟨⟨n', input₂⟩, hn, hget⟩ := Option.bind_eq_some_iff.mp hget
    cases hget
    exact ⟨getLevel_lt hlevel, getVarint64_lt hn⟩
  · -- a new file
    split at h
    · exact nomatch h
    · rename_i level number fileSize smallest largest input' hget
      obtain ⟨⟨level', input₁⟩, hlevel, hget⟩ := Option.bind_eq_some_iff.mp hget
      obtain ⟨⟨number', input₂⟩, hnumber, hget⟩ := Option.bind_eq_some_iff.mp hget
      obtain ⟨⟨fileSize', input₃⟩, hsize, hget⟩ := Option.bind_eq_some_iff.mp hget
      obtain ⟨⟨smallest', input₄⟩, hsmallest, hget⟩ := Option.bind_eq_some_iff.mp hget
      obtain ⟨⟨largest', input₅⟩, hlargest, hget⟩ := Option.bind_eq_some_iff.mp hget
      cases hget
      split at h
      · rename_i smallestKey largestKey hsm hla
        cases h
        exact ⟨getLevel_lt hlevel, getVarint64_lt hnumber, getVarint64_lt hsize,
          InternalKey.fits_of_ofBytes (getLengthPrefixed_lt hsmallest) hsm,
          InternalKey.fits_of_ofBytes (getLengthPrefixed_lt hlargest) hla⟩
      · exact nomatch h
  · exact nomatch h

/-- Reading a field puts nothing else into the edit. -/
theorem mem_fields_addField {edit : VersionEdit} {field f : EditField}
    (hf : f ∈ (edit.addField field).fields) : f ∈ edit.fields ∨ f = field := by
  cases field with
  | comparator _ | logNumber _ | prevLogNumber _ | nextFileNumber _ | lastSequence _ =>
    simp only [VersionEdit.fields, VersionEdit.addField, List.mem_append, List.mem_map,
      Option.mem_toList] at hf ⊢
    grind
  | compactPointer _ _ | newFile _ _ =>
    simp only [VersionEdit.fields, VersionEdit.addField, VersionEdit.setCompactPointer,
      VersionEdit.addFile, List.mem_append, List.mem_map] at hf ⊢
    grind
  | deletedFile level n =>
    simp only [VersionEdit.fields, VersionEdit.addField, List.mem_append, List.mem_map] at hf ⊢
    rcases hf with (hf | ⟨p, hp, rfl⟩) | hf
    · exact Or.inl (Or.inl (Or.inl hf))
    · rcases VersionEdit.mem_removeFile.mp hp with rfl | hp
      · exact Or.inr rfl
      · exact Or.inl (Or.inl (Or.inr ⟨p, hp, rfl⟩))
    · exact Or.inl (Or.inr hf)

theorem decodeLoop_fits : ∀ {fuel : ℕ} {edit edit' : VersionEdit} {input : Bytes}, edit.Fits →
    decodeLoop fuel edit input = .ok edit' → edit'.Fits := by
  intro fuel
  induction fuel with
  | zero =>
    intro edit edit' input hfits h
    cases h
  | succ fuel ih =>
    intro edit edit' input hfits h
    rw [decodeLoop] at h
    split at h
    · split_ifs at h
      cases h
      exact hfits
    · split at h
      · cases h
      · rename_i field rest hfield
        refine ih (fun f hf => ?_) h
        rcases mem_fields_addField hf with hf | rfl
        · exact hfits f hf
        · exact decodeField_fits hfield

/-- Every record that is accepted holds an edit that fits. -/
theorem decodeFrom_fits {src : Bytes} {edit : VersionEdit}
    (h : VersionEdit.decodeFrom src = .ok edit) : edit.Fits := by
  rw [VersionEdit.decodeFrom] at h
  split at h
  · cases h
  · rename_i edit' hloop
    cases h
    exact decodeLoop_fits (by decide) hloop

/-- **Records of the manifest.** An edit that fits the widths of the encoding is read back as it
    was written; so is every edit that `decode_from` accepts, from whatever bytes; and a record
    cut short is refused or is the encoding of the fields before the cut. -/
theorem VersionEdit.record_roundtrip :
    (∀ edit : VersionEdit, edit.Fits → VersionEdit.decodeFrom edit.encodeTo = .ok edit) ∧
    (∀ src edit, VersionEdit.decodeFrom src = .ok edit →
      VersionEdit.decodeFrom edit.encodeTo = .ok edit) ∧
    ∀ edit : VersionEdit, edit.Fits → ∀ b, b <+: edit.encodeTo → b ≠ edit.encodeTo →
      (∃ failure, VersionEdit.decodeFrom b = .error failure) ∨
        ∃ n < edit.fields.length, b = (edit.fields.take n).flatMap EditField.encode := by
  refine ⟨fun edit h => decodeFrom_encodeTo h, fun src edit h => ?_, fun edit h b hb hne => ?_⟩
  · exact decodeFrom_encodeTo (decodeFrom_fits h)
  · rcases decodeLoop_cut h (b.length + 1) .empty hb with ⟨failure, hfail⟩ | ⟨n, hn, heq⟩
    · exact Or.inl ⟨_, by rw [VersionEdit.decodeFrom, hfail]⟩
    · refine Or.inr ⟨n, lt_of_le_of_ne hn fun hall => hne ?_, heq⟩
      rw [heq, hall, List.take_length, VersionEdit.encodeTo]

end Ambar
