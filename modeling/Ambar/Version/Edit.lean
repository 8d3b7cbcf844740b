import Ambar.Lib.OrderedSet
import Ambar.Format.Encoding
import Ambar.Version.Files

/-!
# Version edits

Model of `src/version_edit.hpp` and `src/version_edit.cpp`: the change from one
version to the next, and its encoding as one record of the manifest. A field
with its `has_…_` flag is an `Option`. The encoding is a sequence of tagged
fields, modelled as a list of `EditField`.

* `VersionEdit.decodeFrom_encodeTo`: an edit whose numbers and lengths fit the
  fixed widths of the encoding is read back as it was written.
-/

namespace Ambar

/-! ## Edits -/

/-- The order of `std::set<std::pair<int, uint64_t>>`. -/
def levelNumberKey (p : ℕ × ℕ) : ℕ ×ₗ ℕ := toLex p

/-- `class VersionEdit` (`src/version_edit.hpp`, lines 58–139). -/
@[ext]
structure VersionEdit where
  comparator : Option Bytes
  logNumber : Option ℕ
  prevLogNumber : Option ℕ
  nextFileNumber : Option ℕ
  lastSequence : Option ℕ
  compactPointers : List (ℕ × InternalKey)
  deletedFiles : Lib.OrderedSet levelNumberKey
  newFiles : List (ℕ × FileMetaData)

namespace VersionEdit

/-- `VersionEdit()`, and `clear` (`src/version_edit.cpp`, lines 37–39). -/
def empty : VersionEdit where
  comparator := none
  logNumber := none
  prevLogNumber := none
  nextFileNumber := none
  lastSequence := none
  compactPointers := []
  deletedFiles := Lib.OrderedSet.empty
  newFiles := []

/-- `set_compact_pointer` (`src/version_edit.hpp`, lines 85–87). -/
def setCompactPointer (edit : VersionEdit) (level : ℕ) (key : InternalKey) : VersionEdit :=
  { edit with compactPointers := edit.compactPointers ++ [(level, key)] }

/-- `add_file` (`src/version_edit.cpp`, lines 41–50). -/
def addFile (edit : VersionEdit) (level : ℕ) (file : FileMetaData) : VersionEdit :=
  { edit with newFiles := edit.newFiles ++ [(level, file)] }

/-- `remove_file` (`src/version_edit.hpp`, lines 92–94). -/
def removeFile (edit : VersionEdit) (level number : ℕ) : VersionEdit :=
  { edit with deletedFiles := edit.deletedFiles.insert (level, number) }

theorem mem_removeFile {edit : VersionEdit} {level number : ℕ} {p : ℕ × ℕ} :
    p ∈ (edit.removeFile level number).deletedFiles ↔
      p = (level, number) ∨ p ∈ edit.deletedFiles :=
  Lib.OrderedSet.mem_insert toLex.injective

end VersionEdit

/-! ## Fields and their encoding -/

/-- One tagged field of a record. -/
inductive EditField where
  | comparator (name : Bytes)
  | logNumber (number : ℕ)
  | prevLogNumber (number : ℕ)
  | nextFileNumber (number : ℕ)
  | lastSequence (sequence : ℕ)
  | compactPointer (level : ℕ) (key : InternalKey)
  | deletedFile (level number : ℕ)
  | newFile (level : ℕ) (file : FileMetaData)

namespace EditField

/-- `enum class Tag` (lines 13–24). -/
def tag : EditField → ℕ
  | comparator _ => 1
  | logNumber _ => 2
  | nextFileNumber _ => 3
  | lastSequence _ => 4
  | compactPointer _ _ => 5
  | deletedFile _ _ => 6
  | newFile _ _ => 7
  | prevLogNumber _ => 9

/-- What `encode_to` writes after the tag (lines 52–90). -/
def payload : EditField → Bytes
  | comparator name => putLengthPrefixed name
  | logNumber number => putVarint number
  | prevLogNumber number => putVarint number
  | nextFileNumber number => putVarint number
  | lastSequence sequence => putVarint sequence
  | compactPointer level key => putVarint level ++ putLengthPrefixed key.toBytes
  | deletedFile level number => putVarint level ++ putVarint number
  | newFile level file =>
    putVarint level ++ putVarint file.number ++ putVarint file.fileSize ++
      putLengthPrefixed file.smallest.toBytes ++ putLengthPrefixed file.largest.toBytes

def encode (field : EditField) : Bytes := putVarint field.tag ++ field.payload

end EditField

namespace VersionEdit

/-- The fields of an edit in the order `encode_to` writes them. -/
def fields (edit : VersionEdit) : List EditField :=
  edit.comparator.toList.map .comparator ++
    edit.logNumber.toList.map .logNumber ++
    edit.prevLogNumber.toList.map .prevLogNumber ++
    edit.nextFileNumber.toList.map .nextFileNumber ++
    edit.lastSequence.toList.map .lastSequence ++
    edit.compactPointers.map (fun p => .compactPointer p.1 p.2) ++
    edit.deletedFiles.toList.map (fun p => .deletedFile p.1 p.2) ++
    edit.newFiles.map (fun p => .newFile p.1 p.2)

/-- `VersionEdit::encode_to` (lines 52–90). -/
def encodeTo (edit : VersionEdit) : Bytes := edit.fields.flatMap EditField.encode

/-- What `decode_from` does with a field it has read. -/
def addField (edit : VersionEdit) : EditField → VersionEdit
  | .comparator name => { edit with comparator := some name }
  | .logNumber number => { edit with logNumber := some number }
  | .prevLogNumber number => { edit with prevLogNumber := some number }
  | .nextFileNumber number => { edit with nextFileNumber := some number }
  | .lastSequence sequence => { edit with lastSequence := some sequence }
  | .compactPointer level key => edit.setCompactPointer level key
  | .deletedFile level number => edit.removeFile level number
  | .newFile level file => edit.addFile level file

end VersionEdit

/-! ## Decoding -/

/-- `get_level` (lines 26–33). -/
def getLevel (input : Bytes) : Option (ℕ × Bytes) := do
  let (value, input) ← getVarint32 input
  if kNumLevels ≤ value then none else some (value, input)

/-- The payload of a new file before its keys are checked (lines 185–190). -/
def getNewFile (input : Bytes) : Option ((ℕ × ℕ × ℕ × Bytes × Bytes) × Bytes) := do
  let (level, input) ← getLevel input
  let (number, input) ← getVarint64 input
  let (fileSize, input) ← getVarint64 input
  let (smallest, input) ← getLengthPrefixed input
  let (largest, input) ← getLengthPrefixed input
  some ((level, number, fileSize, smallest, largest), input)

/-- A reader and the field it makes, or the failure text. -/
def readField {α : Type} (value : Option (α × Bytes)) (field : α → EditField) (failure : String) :
    Except String (EditField × Bytes) :=
  match value with
  | some (a, input) => .ok (field a, input)
  | none => .error failure

/-- The `switch` of `decode_from` (lines 105–210). -/
def decodeField (tag : ℕ) (input : Bytes) : Except String (EditField × Bytes) :=
  match tag with
  | 1 => readField (getLengthPrefixed input) .comparator "comparator name"
  | 2 => readField (getVarint64 input) .logNumber "log number"
  | 9 => readField (getVarint64 input) .prevLogNumber "previous log number"
  | 3 => readField (getVarint64 input) .nextFileNumber "next file number"
  | 4 => readField (getVarint64 input) .lastSequence "last sequence"
  | 5 =>
    match (do let (level, input) ← getLevel input
              let (field, input) ← getLengthPrefixed input
              some ((level, field), input)) with
    | none => .error "compaction pointer"
    | some ((level, field), input) =>
      match InternalKey.ofBytes field with
      | none => .error "compaction pointer: a key too short to be an internal key"
      | some key => .ok (.compactPointer level key, input)
  | 6 =>
    readField (do let (level, input) ← getLevel input
                  let (number, input) ← getVarint64 input
                  some ((level, number), input))
      (fun p => .deletedFile p.1 p.2) "deleted file"
  | 7 =>
    match getNewFile input with
    | none => .error "new file"
    | some ((level, number, fileSize, smallest, largest), input) =>
      match InternalKey.ofBytes smallest, InternalKey.ofBytes largest with
      | some smallest, some largest =>
        .ok (.newFile level ⟨number, fileSize, smallest, largest⟩, input)
      | _, _ => .error "new file: a key too short to be an internal key"
  | _ => .error "unknown tag"

/-- The loop of `decode_from` (lines 103–217). A turn consumes at least one byte,
    so `fuel` above the length of the input is never used up. -/
def decodeLoop : (fuel : ℕ) → VersionEdit → Bytes → Except String VersionEdit
  | 0, _, _ => .error "trailing bytes after the last field"
  | fuel + 1, edit, input =>
    match getVarint32 input with
    | none => if input = [] then .ok edit else .error "trailing bytes after the last field"
    | some (tag, input) =>
      match decodeField tag input with
      | .error failure => .error failure
      | .ok (field, input) => decodeLoop fuel (edit.addField field) input

/-- `VersionEdit::decode_from` (lines 92–223). -/
def VersionEdit.decodeFrom (src : Bytes) : Except String VersionEdit :=
  match decodeLoop (src.length + 1) .empty src with
  | .error failure => .error ("version edit: " ++ failure)
  | .ok edit => .ok edit

/-! ## Reading back -/

/-- The key's trailer is a `uint64_t` and its length a `uint32_t`. -/
def InternalKey.Fits (k : InternalKey) : Prop :=
  k.trailer < 2 ^ 64 ∧ k.userKey.length + 8 < 2 ^ 32

/-- Every number of the field fits its type, and every string its length prefix. -/
def EditField.Fits : EditField → Prop
  | comparator name => name.length < 2 ^ 32
  | logNumber n => n < 2 ^ 64
  | prevLogNumber n => n < 2 ^ 64
  | nextFileNumber n => n < 2 ^ 64
  | lastSequence n => n < 2 ^ 64
  | compactPointer level key => level < kNumLevels ∧ key.Fits
  | deletedFile level n => level < kNumLevels ∧ n < 2 ^ 64
  | newFile level file => level < kNumLevels ∧ file.number < 2 ^ 64 ∧ file.fileSize < 2 ^ 64 ∧
      file.smallest.Fits ∧ file.largest.Fits

instance (k : InternalKey) : Decidable k.Fits := inferInstanceAs (Decidable (_ ∧ _))

instance : (field : EditField) → Decidable field.Fits
  | .comparator name => inferInstanceAs (Decidable (name.length < 2 ^ 32))
  | .logNumber n => inferInstanceAs (Decidable (n < 2 ^ 64))
  | .prevLogNumber n => inferInstanceAs (Decidable (n < 2 ^ 64))
  | .nextFileNumber n => inferInstanceAs (Decidable (n < 2 ^ 64))
  | .lastSequence n => inferInstanceAs (Decidable (n < 2 ^ 64))
  | .compactPointer _ _ => inferInstanceAs (Decidable (_ ∧ _))
  | .deletedFile _ _ => inferInstanceAs (Decidable (_ ∧ _))
  | .newFile _ _ => inferInstanceAs (Decidable (_ ∧ _))

def VersionEdit.Fits (edit : VersionEdit) : Prop := ∀ field ∈ edit.fields, field.Fits

instance (edit : VersionEdit) : Decidable edit.Fits :=
  inferInstanceAs (Decidable (∀ field ∈ edit.fields, field.Fits))

theorem getLevel_put {level : ℕ} (h : level < kNumLevels) (rest : Bytes) :
    getLevel (putVarint level ++ rest) = some (level, rest) := by
  have h7 : level < 7 := h
  have hget : getVarint32 (putVarint level ++ rest) = some (level, rest) :=
    getVarint32_put (by omega) rest
  simp [getLevel, hget, kNumLevels, h7]

theorem getLengthPrefixed_toBytes {k : InternalKey} (h : k.Fits) (rest : Bytes) :
    getLengthPrefixed (putLengthPrefixed k.toBytes ++ rest) = some (k.toBytes, rest) := by
  refine getLengthPrefixed_put ?_ rest
  simpa [InternalKey.toBytes] using h.2

/-- Each field is read back, and the rest of the input left. -/
theorem decodeField_payload {field : EditField} (h : field.Fits) (rest : Bytes) :
    decodeField field.tag (field.payload ++ rest) = .ok (field, rest) := by
  cases field with
  | comparator name =>
    simp [EditField.tag, EditField.payload, decodeField, readField, getLengthPrefixed_put h]
  | logNumber n => simp [EditField.tag, EditField.payload, decodeField, readField, getVarint64_put h]
  | prevLogNumber n =>
    simp [EditField.tag, EditField.payload, decodeField, readField, getVarint64_put h]
  | nextFileNumber n =>
    simp [EditField.tag, EditField.payload, decodeField, readField, getVarint64_put h]
  | lastSequence n =>
    simp [EditField.tag, EditField.payload, decodeField, readField, getVarint64_put h]
  | compactPointer level key =>
    obtain ⟨hl, hk⟩ := h
    simp [EditField.tag, EditField.payload, decodeField, getLevel_put hl,
      getLengthPrefixed_toBytes hk, InternalKey.ofBytes_toBytes hk.1]
  | deletedFile level n =>
    obtain ⟨hl, hn⟩ := h
    simp [EditField.tag, EditField.payload, decodeField, readField, getLevel_put hl,
      getVarint64_put hn]
  | newFile level file =>
    obtain ⟨hl, hn, hs, hsm, hla⟩ := h
    simp [EditField.tag, EditField.payload, decodeField, getNewFile, getLevel_put hl,
      getVarint64_put hn, getVarint64_put hs, getLengthPrefixed_toBytes hsm,
      getLengthPrefixed_toBytes hla, InternalKey.ofBytes_toBytes hsm.1,
      InternalKey.ofBytes_toBytes hla.1]

theorem getVarint32_encode (field : EditField) (rest : Bytes) :
    getVarint32 (field.encode ++ rest) = some (field.tag, field.payload ++ rest) := by
  have ht : field.tag < 2 ^ 32 := by cases field <;> simp [EditField.tag]
  rw [EditField.encode, List.append_assoc, getVarint32_put ht]

theorem decodeLoop_encode {fs : List EditField} (h : ∀ field ∈ fs, field.Fits) :
    ∀ (fuel : ℕ) (edit : VersionEdit), fs.length < fuel →
      decodeLoop fuel edit (fs.flatMap EditField.encode) = .ok (fs.foldl VersionEdit.addField edit) := by
  induction fs with
  | nil =>
    intro fuel edit hf
    obtain ⟨fuel, rfl⟩ := Nat.exists_eq_add_of_lt hf
    simp [decodeLoop, getVarint32, getVarint]
  | cons field fs ih =>
    intro fuel edit hf
    obtain ⟨fuel, rfl⟩ := Nat.exists_eq_add_of_lt hf
    rw [List.flatMap_cons, decodeLoop, getVarint32_encode]
    simp only [decodeField_payload (h field (by simp))]
    exact ih (fun f hf => h f (List.mem_cons_of_mem _ hf)) _ _ (by simp; omega)

theorem length_le_length_flatMap_encode (fs : List EditField) :
    fs.length ≤ (fs.flatMap EditField.encode).length := by
  induction fs with
  | nil => simp
  | cons field fs ih =>
    have : 0 < field.encode.length := by
      rw [EditField.encode, List.length_append]
      have := List.length_pos_iff.mpr (putVarint_ne_nil field.tag)
      omega
    simp only [List.flatMap_cons, List.length_append, List.length_cons]
    omega

/-- Collecting the fields of an edit gives the edit. -/
theorem foldl_addField_fields (edit : VersionEdit) :
    edit.fields.foldl VersionEdit.addField .empty = edit := by
  have hopt : ∀ {α : Type} (o : Option α) (f : α → EditField) (e : VersionEdit),
      (o.toList.map f).foldl VersionEdit.addField e =
        o.elim e fun a => e.addField (f a) := by
    intro α o f e
    cases o <;> rfl
  have hptr : ∀ (l : List (ℕ × InternalKey)) (e : VersionEdit),
      (l.map fun p => EditField.compactPointer p.1 p.2).foldl VersionEdit.addField e =
        { e with compactPointers := e.compactPointers ++ l } := by
    intro l
    induction l with
    | nil => simp
    | cons p l ih => simp [ih, VersionEdit.addField, VersionEdit.setCompactPointer]
  have hnew : ∀ (l : List (ℕ × FileMetaData)) (e : VersionEdit),
      (l.map fun p => EditField.newFile p.1 p.2).foldl VersionEdit.addField e =
        { e with newFiles := e.newFiles ++ l } := by
    intro l
    induction l with
    | nil => simp
    | cons p l ih => simp [ih, VersionEdit.addField, VersionEdit.addFile]
  have hdel : ∀ (l : List (ℕ × ℕ)) (e : VersionEdit),
      (l.map fun p => EditField.deletedFile p.1 p.2).foldl VersionEdit.addField e =
        { e with deletedFiles := l.foldl Lib.OrderedSet.insert e.deletedFiles } := by
    intro l
    induction l with
    | nil => simp
    | cons p l ih => simp [ih, VersionEdit.addField, VersionEdit.removeFile]
  have hset : edit.deletedFiles.toList.foldl Lib.OrderedSet.insert Lib.OrderedSet.empty =
      edit.deletedFiles := by
    rw [Lib.OrderedSet.foldl_insert _ (by simpa [Lib.OrderedSet.empty] using edit.deletedFiles.sorted)]
    exact Lib.OrderedSet.ext (by simp [Lib.OrderedSet.empty])
  obtain ⟨c, l, p, n, s, ptrs, dels, news⟩ := edit
  simp only [VersionEdit.fields, List.foldl_append, hopt, hptr, hnew, hdel] at *
  ext1
  all_goals
    cases c <;> cases l <;> cases p <;> cases n <;> cases s <;>
      simp [VersionEdit.addField, VersionEdit.empty, hset]

/-- An edit is read back from its record as it was written. -/
theorem VersionEdit.decodeFrom_encodeTo {edit : VersionEdit} (h : edit.Fits) :
    VersionEdit.decodeFrom edit.encodeTo = .ok edit := by
  have hlen := length_le_length_flatMap_encode edit.fields
  rw [VersionEdit.decodeFrom, VersionEdit.encodeTo,
    decodeLoop_encode h _ _ (by omega), foldl_addField_fields]

end Ambar
