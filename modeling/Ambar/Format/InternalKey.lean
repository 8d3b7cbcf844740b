import Ambar.Lib.Newest

/-!
# Internal keys

Model of `src/dbformat.hpp`. An internal key is a user key followed by an
eight-byte trailer `sequence << 8 | type`; `compare_internal_keys` orders by
user key ascending and then by trailer descending, so that the newest version of
a user key comes first. A byte string of at least eight bytes is the same thing
as a user key and a trailer, and the model keeps the two apart. Trailers and
sequence numbers are natural numbers; sequence numbers stay within the 56 bits
of `kMaxSequenceNumber`.

* `InternalKey.lt_iff`: the order of `compare_internal_keys`, a linear order.
* `makeLookupKey_le_iff`: the seek target of a point lookup comes at or before
  exactly the versions of its user key visible at its sequence.
-/

namespace Ambar

/-- Bytes as `std::string_view::compare` orders them, as unsigned numbers. -/
instance instLinearOrderUInt8 : LinearOrder UInt8 where
  le_refl := UInt8.le_refl
  le_trans _ _ _ := UInt8.le_trans
  le_antisymm _ _ := UInt8.le_antisymm
  le_total := UInt8.le_total
  lt_iff_le_not_ge a b := by
    simp only [UInt8.le_iff_toNat_le, UInt8.lt_iff_toNat_lt]
    omega
  toDecidableLE := inferInstance
  toDecidableLT := inferInstance
  toDecidableEq := inferInstance

/-- `std::string`, under the lexicographic order of `bytewise_compare`. -/
abbrev Bytes := List UInt8

/-- `enum class ValueType : uint8_t` (lines 26–29). -/
inductive ValueType where
  | deletion
  | value
deriving DecidableEq, Repr

/-- The type byte. -/
def ValueType.toNat : ValueType → ℕ
  | .deletion => 0
  | .value => 1

/-- `kMaxSequenceNumber = (uint64_t{1} << 56) - 1` (line 39). -/
def kMaxSequenceNumber : ℕ := 2 ^ 56 - 1

/-- `kValueTypeForSeek` (line 34). -/
def kValueTypeForSeek : ValueType := .value

/-- `pack_sequence_and_type`: `(seq << 8) | type` (lines 41–43). -/
def packSequenceAndType (seq : ℕ) (type : ValueType) : ℕ := seq * 256 + type.toNat

@[simp] theorem ValueType.toNat_deletion : ValueType.deletion.toNat = 0 := rfl

@[simp] theorem ValueType.toNat_value : ValueType.value.toNat = 1 := rfl

theorem ValueType.toNat_le (t : ValueType) : t.toNat ≤ 1 := by
  cases t <;> decide

/-- An internal key: everything but the trailing eight bytes, and the trailer. -/
structure InternalKey where
  userKey : Bytes
  trailer : ℕ
deriving DecidableEq, Repr

namespace InternalKey

/-- `compare_internal_keys(a, b) < 0` (lines 100–112). -/
protected def lt (a b : InternalKey) : Prop :=
  a.userKey < b.userKey ∨ a.userKey = b.userKey ∧ b.trailer < a.trailer

protected def le (a b : InternalKey) : Prop :=
  a.userKey < b.userKey ∨ a.userKey = b.userKey ∧ b.trailer ≤ a.trailer

instance : LT InternalKey := ⟨InternalKey.lt⟩
instance : LE InternalKey := ⟨InternalKey.le⟩

theorem lt_iff {a b : InternalKey} :
    a < b ↔ a.userKey < b.userKey ∨ a.userKey = b.userKey ∧ b.trailer < a.trailer := Iff.rfl

theorem le_iff {a b : InternalKey} :
    a ≤ b ↔ a.userKey < b.userKey ∨ a.userKey = b.userKey ∧ b.trailer ≤ a.trailer := Iff.rfl

instance (a b : InternalKey) : Decidable (a < b) :=
  inferInstanceAs (Decidable (_ ∨ _))

instance (a b : InternalKey) : Decidable (a ≤ b) :=
  inferInstanceAs (Decidable (_ ∨ _))

instance : LinearOrder InternalKey where
  le_refl a := Or.inr ⟨rfl, le_rfl⟩
  le_trans a b c hab hbc := by
    rcases hab with hab | ⟨hab, hab'⟩ <;> rcases hbc with hbc | ⟨hbc, hbc'⟩
    · exact Or.inl (hab.trans hbc)
    · exact Or.inl (hbc ▸ hab)
    · exact Or.inl (hab ▸ hbc)
    · exact Or.inr ⟨hab.trans hbc, hbc'.trans hab'⟩
  le_antisymm a b hab hba := by
    rcases hab with hab | ⟨hab, hab'⟩ <;> rcases hba with hba | ⟨hba, hba'⟩
    · exact absurd (hab.trans hba) (lt_irrefl _)
    · exact absurd (hba ▸ hab) (lt_irrefl _)
    · exact absurd (hab ▸ hba) (lt_irrefl _)
    · cases a; cases b
      simp only [mk.injEq] at *
      exact ⟨hab, le_antisymm hba' hab'⟩
  le_total a b := by
    rcases lt_trichotomy a.userKey b.userKey with h | h | h
    · exact Or.inl (Or.inl h)
    · rcases le_total b.trailer a.trailer with h' | h'
      · exact Or.inl (Or.inr ⟨h, h'⟩)
      · exact Or.inr (Or.inr ⟨h.symm, h'⟩)
    · exact Or.inr (Or.inl h)
  lt_iff_le_not_ge a b := by
    simp only [lt_iff, le_iff]
    constructor
    · rintro (h | ⟨h, h'⟩)
      · refine ⟨Or.inl h, ?_⟩
        rintro (h2 | ⟨h2, -⟩)
        · exact lt_irrefl _ (h.trans h2)
        · exact lt_irrefl _ (h2 ▸ h)
      · refine ⟨Or.inr ⟨h, h'.le⟩, ?_⟩
        rintro (h2 | ⟨-, h2⟩)
        · exact lt_irrefl _ (h ▸ h2)
        · omega
    · rintro ⟨h | ⟨h, h'⟩, h2⟩
      · exact Or.inl h
      · refine Or.inr ⟨h, ?_⟩
        by_contra hn
        exact h2 (Or.inr ⟨h.symm, not_lt.mp hn⟩)
  toDecidableLE := inferInstance
  toDecidableLT := inferInstance
  toDecidableEq := inferInstance

theorem userKey_le_of_le {a b : InternalKey} (h : a ≤ b) : a.userKey ≤ b.userKey := by
  rcases h with h | ⟨h, -⟩
  · exact h.le
  · exact h.le

theorem userKey_le_of_lt {a b : InternalKey} (h : a < b) : a.userKey ≤ b.userKey :=
  userKey_le_of_le h.le

theorem lt_of_userKey_lt {a b : InternalKey} (h : a.userKey < b.userKey) : a < b := Or.inl h

theorem lt_iff_of_userKey_eq {a b : InternalKey} (h : a.userKey = b.userKey) :
    a < b ↔ b.trailer < a.trailer := by
  rw [lt_iff]
  simp [h]

/-- `extract_sequence` (lines 72–74). -/
def sequence (k : InternalKey) : ℕ := k.trailer / 256

/-- The low byte of the trailer. -/
def typeByte (k : InternalKey) : ℕ := k.trailer % 256

end InternalKey

/-- `make_internal_key` (lines 57–63). -/
def makeInternalKey (userKey : Bytes) (sequence : ℕ) (type : ValueType) : InternalKey :=
  ⟨userKey, packSequenceAndType sequence type⟩

@[simp] theorem makeInternalKey_userKey (u : Bytes) (n : ℕ) (t : ValueType) :
    (makeInternalKey u n t).userKey = u := rfl

@[simp] theorem makeInternalKey_sequence (u : Bytes) (n : ℕ) (t : ValueType) :
    (makeInternalKey u n t).sequence = n := by
  have := t.toNat_le
  simp only [makeInternalKey, InternalKey.sequence, packSequenceAndType]
  omega

/-- `make_lookup_key` (lines 121–124), the seek target of a point lookup. -/
def makeLookupKey (userKey : Bytes) (snapshot : ℕ) : InternalKey :=
  makeInternalKey userKey snapshot kValueTypeForSeek

@[simp] theorem makeLookupKey_userKey (u : Bytes) (s : ℕ) : (makeLookupKey u s).userKey = u := rfl

/-- A parsed key (lines 46–50). -/
structure ParsedInternalKey where
  userKey : Bytes
  sequence : ℕ
  type : ValueType
deriving DecidableEq, Repr

/-- `parse_internal_key` (lines 84–94): fails on an unknown type byte. -/
def parseInternalKey (k : InternalKey) : Option ParsedInternalKey :=
  if k.typeByte = ValueType.value.toNat then some ⟨k.userKey, k.sequence, .value⟩
  else if k.typeByte = ValueType.deletion.toNat then some ⟨k.userKey, k.sequence, .deletion⟩
  else none

@[simp] theorem parseInternalKey_make (u : Bytes) (n : ℕ) (t : ValueType) :
    parseInternalKey (makeInternalKey u n t) = some ⟨u, n, t⟩ := by
  have h1 := makeInternalKey_sequence u n t
  have h2 : (makeInternalKey u n t).typeByte = t.toNat := by
    have := t.toNat_le
    simp only [makeInternalKey, InternalKey.typeByte, packSequenceAndType]
    omega
  cases t <;> simp [parseInternalKey, h1, h2, ValueType.toNat]

/-- A key the engine wrote: a known type and a sequence number of 56 bits. -/
def InternalKey.WellFormed (k : InternalKey) : Prop :=
  k.typeByte ≤ 1 ∧ k.sequence ≤ kMaxSequenceNumber

instance (k : InternalKey) : Decidable k.WellFormed := inferInstanceAs (Decidable (_ ∧ _))

theorem makeInternalKey_wellFormed (u : Bytes) {n : ℕ} (t : ValueType)
    (hn : n ≤ kMaxSequenceNumber) : (makeInternalKey u n t).WellFormed := by
  refine ⟨?_, by simpa using hn⟩
  have := t.toNat_le
  simp only [makeInternalKey, InternalKey.typeByte, packSequenceAndType]
  omega

theorem parseInternalKey_wellFormed {k : InternalKey} (h : k.WellFormed) :
    ∃ t : ValueType, t.toNat = k.typeByte ∧
      parseInternalKey k = some ⟨k.userKey, k.sequence, t⟩ := by
  obtain ⟨h, -⟩ := h
  have h01 : k.typeByte = 0 ∨ k.typeByte = 1 := by omega
  rcases h01 with h0 | h1
  · exact ⟨.deletion, h0.symm, by simp [parseInternalKey, h0]⟩
  · exact ⟨.value, h1.symm, by simp [parseInternalKey, h1]⟩

/-- The versions of `u` at or after the lookup key are those of sequence at most
    the snapshot. -/
theorem makeLookupKey_le_iff {u : Bytes} {s : ℕ} {k : InternalKey} (hw : k.typeByte ≤ 1)
    (hu : k.userKey = u) : makeLookupKey u s ≤ k ↔ k.sequence ≤ s := by
  simp only [InternalKey.le_iff, makeLookupKey, makeInternalKey, packSequenceAndType,
    kValueTypeForSeek, ValueType.toNat, hu, lt_irrefl, true_and, false_or]
  simp only [InternalKey.typeByte, InternalKey.sequence] at *
  omega

/-- The key `make_internal_key(u, kMaxSequenceNumber, kValueTypeForSeek)` comes
    before every well-formed key of `u`. -/
theorem probe_le {u : Bytes} {k : InternalKey} (hw : k.WellFormed) (hu : u ≤ k.userKey) :
    makeInternalKey u kMaxSequenceNumber kValueTypeForSeek ≤ k := by
  rcases hu.lt_or_eq with h | h
  · exact (InternalKey.lt_of_userKey_lt h).le
  · exact (makeLookupKey_le_iff hw.1 h.symm).mpr hw.2

/-! ## Entries -/

/-- One record of a memtable or a table: an internal key and a value. -/
structure Entry where
  key : InternalKey
  value : Bytes
deriving DecidableEq, Repr

namespace Entry

abbrev userKey (e : Entry) : Bytes := e.key.userKey
abbrev sequence (e : Entry) : ℕ := e.key.sequence

/-- The value a reader is shown, `none` for a deletion. -/
def shown (e : Entry) : Option Bytes :=
  if e.key.typeByte = ValueType.value.toNat then some e.value else none

theorem shown_eq_none_iff {e : Entry} (hw : e.key.WellFormed) :
    e.shown = none ↔ e.key.typeByte = 0 := by
  have h1 := hw.1
  by_cases h : e.key.typeByte = ValueType.value.toNat
  · rw [shown, if_pos h]
    simp [h]
  · rw [shown, if_neg h]
    simp only [ValueType.toNat_value] at h
    simp only [true_iff]
    omega

/-- How entries are read, in the terms of `Lib.Versioning`. -/
def versioning : Lib.Versioning Entry Bytes InternalKey Bytes where
  user e := e.key.userKey
  key e := e.key
  seq e := e.key.sequence
  shown := shown

/-- Strictly increasing in internal-key order, as every memtable and table is. -/
def Sorted (es : List Entry) : Prop := es.Pairwise fun a b => a.key < b.key

end Entry

end Ambar
