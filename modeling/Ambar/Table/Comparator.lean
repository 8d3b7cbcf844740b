import Ambar.Format.Checksum

/-!
# Comparators

How keys are ordered and how they may be shortened (`src/comparator.hpp`,
`src/comparator.cpp`). Blocks are generic in the comparator; a comparison is one of
ranks in a linear order, of which the code only asks whether it is negative.

* `internalShortestSeparator_spec`, `internalShortSuccessor_spec`: where the shortened
  keys lie; `Comparator.Shortens` is what a table needs of that.
* `internalKeys_ordered`: the order of internal keys.
-/

namespace Ambar

/-- `struct Comparator` (`src/comparator.hpp`, lines 33–71). -/
structure Comparator (κ : Type) where
  name : String
  minKeyLength : ℕ
  rank : Bytes → κ
  findShortestSeparator : (start limit : Bytes) → Bytes
  findShortSuccessor : (key : Bytes) → Bytes

/-- `compare(a, b) < 0`. -/
def Comparator.less {κ : Type} [LinearOrder κ] (c : Comparator κ) (a b : Bytes) : Bool :=
  decide (c.rank a < c.rank b)

/-- `bytewise_shortest_separator` (`src/comparator.cpp`, lines 18–38). -/
def bytewiseShortestSeparator : (start limit : Bytes) → Bytes
  | byte :: start, b :: limit =>
    if byte = b then byte :: bytewiseShortestSeparator start limit
    else if byte < 0xff ∧ byte.toNat + 1 < b.toNat then [byte + 1]
    else byte :: start
  | start, _ => start

/-- `bytewise_short_successor` (lines 40–51). -/
def bytewiseShortSuccessor : (key : Bytes) → Bytes
  | [] => []
  | byte :: key => if byte ≠ 0xff then [byte + 1] else byte :: bytewiseShortSuccessor key

/-- `kBytewise` (lines 53–59). -/
def bytewiseComparator : Comparator Bytes :=
  ⟨"ambar.BytewiseComparator", 0, id, bytewiseShortestSeparator, bytewiseShortSuccessor⟩

/-- An internal key's bytes, taken apart. -/
def internalRank (key : Bytes) : InternalKey :=
  ⟨extractUserKey key, decodeFixed (key.drop (key.length - 8))⟩

/-- A user key under a trailer that comes before those of all its versions. -/
def shortenedKey (userKey : Bytes) : Bytes :=
  (makeInternalKey userKey kMaxSequenceNumber kValueTypeForSeek).toBytes

/-- `internal_shortest_separator` (lines 63–84). -/
def internalShortestSeparator (start limit : Bytes) : Bytes :=
  let startUser := extractUserKey start
  let limitUser := extractUserKey limit
  let shortened := bytewiseShortestSeparator startUser limitUser
  if startUser.length ≤ shortened.length then start
  else if ¬ startUser < shortened then start
  else if ¬ shortened < limitUser then start
  else shortenedKey shortened

/-- `internal_short_successor` (lines 86–97). -/
def internalShortSuccessor (key : Bytes) : Bytes :=
  let user := extractUserKey key
  let shortened := bytewiseShortSuccessor user
  if user.length ≤ shortened.length then key
  else if ¬ user < shortened then key
  else shortenedKey shortened

/-- `kInternal` (lines 99–105). -/
def internalKeyComparator : Comparator InternalKey :=
  ⟨"ambar.InternalKeyComparator", 8, internalRank, internalShortestSeparator, internalShortSuccessor⟩

theorem internalRank_toBytes {k : InternalKey} (h : k.trailer < 2 ^ 64) : internalRank k.toBytes = k := by
  have hlen : k.toBytes.length = k.userKey.length + 8 := by simp [InternalKey.toBytes]
  unfold internalRank extractUserKey
  rw [hlen, Nat.add_sub_cancel, InternalKey.toBytes, List.take_left, List.drop_left,
    @decodeFixed_put 8 k.trailer (by omega)]

theorem InternalKey.WellFormed.trailer_lt {k : InternalKey} (h : k.WellFormed) : k.trailer < 2 ^ 64 := by
  obtain ⟨-, hseq⟩ := h
  unfold InternalKey.sequence kMaxSequenceNumber at hseq
  omega

theorem internalRank_shortenedKey (u : Bytes) :
    internalRank (shortenedKey u) = makeInternalKey u kMaxSequenceNumber kValueTypeForSeek :=
  internalRank_toBytes (makeInternalKey_wellFormed u _ le_rfl).trailer_lt

theorem length_shortenedKey (u : Bytes) : 8 ≤ (shortenedKey u).length := by
  simp [shortenedKey, InternalKey.toBytes]

/-- What `find_shortest_separator` and `find_short_successor` promise. -/
structure Comparator.Shortens {κ : Type} [LinearOrder κ] (c : Comparator κ) : Prop where
  separator : ∀ {start limit : Bytes}, c.minKeyLength ≤ start.length → c.rank start < c.rank limit →
    c.minKeyLength ≤ (c.findShortestSeparator start limit).length ∧
      c.rank start ≤ c.rank (c.findShortestSeparator start limit) ∧
      c.rank (c.findShortestSeparator start limit) < c.rank limit
  successor : ∀ {key : Bytes}, c.minKeyLength ≤ key.length →
    c.minKeyLength ≤ (c.findShortSuccessor key).length ∧ c.rank key ≤ c.rank (c.findShortSuccessor key)

/-- A separator lies at or after the one key and before the other. -/
theorem internalShortestSeparator_spec {start limit : Bytes} (hstart : 8 ≤ start.length)
    (h : internalRank start < internalRank limit) :
    8 ≤ (internalShortestSeparator start limit).length ∧
      internalRank start ≤ internalRank (internalShortestSeparator start limit) ∧
      internalRank (internalShortestSeparator start limit) < internalRank limit := by
  unfold internalShortestSeparator
  simp only
  split_ifs with h1 h2 h3
  · exact ⟨hstart, le_rfl, h⟩
  · refine ⟨length_shortenedKey _, ?_, ?_⟩
    · rw [internalRank_shortenedKey]
      exact (InternalKey.lt_of_userKey_lt h2).le
    · rw [internalRank_shortenedKey]
      exact InternalKey.lt_of_userKey_lt h3
  · exact ⟨hstart, le_rfl, h⟩
  · exact ⟨hstart, le_rfl, h⟩

/-- A successor lies at or after its key. -/
theorem internalShortSuccessor_spec {key : Bytes} (hkey : 8 ≤ key.length) :
    8 ≤ (internalShortSuccessor key).length ∧
      internalRank key ≤ internalRank (internalShortSuccessor key) := by
  unfold internalShortSuccessor
  simp only
  split_ifs with h1 h2
  · exact ⟨hkey, le_rfl⟩
  · refine ⟨length_shortenedKey _, ?_⟩
    rw [internalRank_shortenedKey]
    exact (InternalKey.lt_of_userKey_lt h2).le
  · exact ⟨hkey, le_rfl⟩

theorem internalKeyComparator_shortens : internalKeyComparator.Shortens :=
  ⟨internalShortestSeparator_spec, internalShortSuccessor_spec⟩

/-- A separator that is not the first key itself has a user key between those of the two. -/
theorem internalShortestSeparator_between (start limit : Bytes) :
    internalShortestSeparator start limit = start ∨
      (internalRank start).userKey < (internalRank (internalShortestSeparator start limit)).userKey ∧
      (internalRank (internalShortestSeparator start limit)).userKey < (internalRank limit).userKey := by
  unfold internalShortestSeparator
  simp only
  split_ifs with h1 h2 h3
  · exact Or.inl rfl
  · rw [internalRank_shortenedKey]
    exact Or.inr ⟨h2, h3⟩
  · exact Or.inl rfl
  · exact Or.inl rfl

/-- A separator that is not the first key itself comes before the other's user key. -/
theorem internalShortestSeparator_cases (start limit : Bytes) :
    internalShortestSeparator start limit = start ∨
      (internalRank (internalShortestSeparator start limit)).userKey < (internalRank limit).userKey :=
  (internalShortestSeparator_between start limit).imp id And.right

/-! ## The order of internal keys -/

/-- `compare_internal_keys` (`src/dbformat.hpp`, lines 100–112). -/
def compareInternalKeys (a b : Bytes) : ℤ :=
  let userA := extractUserKey a
  let userB := extractUserKey b
  if userA < userB then -1
  else if userB < userA then 1
  else
    let trailerA := decodeFixed (a.drop (a.length - 8))
    let trailerB := decodeFixed (b.drop (b.length - 8))
    if trailerB < trailerA then -1 else if trailerA < trailerB then 1 else 0

theorem compareInternalKeys_cases (a b : Bytes) :
    (compareInternalKeys a b = -1 ∧ internalRank a < internalRank b) ∨
    (compareInternalKeys a b = 0 ∧ internalRank a = internalRank b) ∨
    (compareInternalKeys a b = 1 ∧ internalRank b < internalRank a) := by
  unfold compareInternalKeys
  simp only
  split_ifs with h1 h2 h3 h4
  · exact Or.inl ⟨rfl, InternalKey.lt_of_userKey_lt h1⟩
  · exact Or.inr (Or.inr ⟨rfl, InternalKey.lt_of_userKey_lt h2⟩)
  all_goals have huser : extractUserKey a = extractUserKey b := le_antisymm (not_lt.mp h2) (not_lt.mp h1)
  · exact Or.inl ⟨rfl, Or.inr ⟨huser, h3⟩⟩
  · exact Or.inr (Or.inr ⟨rfl, Or.inr ⟨huser.symm, h4⟩⟩)
  · refine Or.inr (Or.inl ⟨rfl, ?_⟩)
    rw [internalRank, internalRank, huser, le_antisymm (not_lt.mp h3) (not_lt.mp h4)]

/-- The sign is the order of the keys, taken apart. -/
theorem compareInternalKeys_lt_zero {a b : Bytes} :
    compareInternalKeys a b < 0 ↔ internalRank a < internalRank b := by
  rcases compareInternalKeys_cases a b with ⟨h, hr⟩ | ⟨h, hr⟩ | ⟨h, hr⟩
  · exact iff_of_true (by omega) hr
  · exact iff_of_false (by omega) (hr ▸ lt_irrefl _)
  · exact iff_of_false (by omega) hr.not_gt

theorem compareInternalKeys_le_zero {a b : Bytes} :
    compareInternalKeys a b ≤ 0 ↔ internalRank a ≤ internalRank b := by
  rcases compareInternalKeys_cases a b with ⟨h, hr⟩ | ⟨h, hr⟩ | ⟨h, hr⟩
  · exact iff_of_true (by omega) hr.le
  · exact iff_of_true (by omega) hr.le
  · exact iff_of_false (by omega) hr.not_ge

/-- Keys of eight bytes or more are their user key and their trailer. -/
theorem internalRank_injOn {a b : Bytes} (ha : 8 ≤ a.length) (hb : 8 ≤ b.length)
    (h : internalRank a = internalRank b) : a = b := by
  obtain ⟨huser, htrailer⟩ := InternalKey.mk.inj h
  have hlen : a.length = b.length := by
    have := congrArg List.length huser
    simp only [extractUserKey, List.length_take] at this
    omega
  have hlast : a.drop (a.length - 8) = b.drop (b.length - 8) := by
    have hlength : (a.drop (a.length - 8)).length = (b.drop (b.length - 8)).length := by
      simp only [List.length_drop]
      omega
    rw [← putFixed_decodeFixed (a.drop _), ← putFixed_decodeFixed (b.drop _), htrailer, hlength]
  rw [← List.take_append_drop (a.length - 8) a, ← List.take_append_drop (b.length - 8) b, hlast]
  exact congrArg (· ++ _) huser

/-- **Internal keys**: what the separator and the successor do, that the comparison is a total
    order, and where the key of a lookup lies in it. -/
theorem internalKeys_ordered :
    (∀ a b : Bytes, 8 ≤ a.length → 8 ≤ b.length → compareInternalKeys a b < 0 →
      compareInternalKeys a (internalShortestSeparator a b) ≤ 0 ∧
      compareInternalKeys (internalShortestSeparator a b) b < 0 ∧
      (internalShortestSeparator a b ≠ a →
        extractUserKey a < extractUserKey (internalShortestSeparator a b) ∧
        extractUserKey (internalShortestSeparator a b) < extractUserKey b)) ∧
    (∀ k : Bytes, 8 ≤ k.length → compareInternalKeys k (internalShortSuccessor k) ≤ 0) ∧
    (∀ a b : Bytes, 8 ≤ a.length → 8 ≤ b.length →
      (compareInternalKeys a b = 0 ↔ a = b) ∧ (compareInternalKeys a b < 0 ↔ 0 < compareInternalKeys b a)) ∧
    (∀ a b c : Bytes, compareInternalKeys a b ≤ 0 → compareInternalKeys b c ≤ 0 →
      compareInternalKeys a c ≤ 0) ∧
    ∀ (u : Bytes) (s : ℕ) (e : InternalKey), s ≤ kMaxSequenceNumber → e.WellFormed → e.userKey = u →
      (s < e.sequence → compareInternalKeys e.toBytes (makeLookupKey u s).toBytes < 0) ∧
      (e.sequence ≤ s → compareInternalKeys (makeLookupKey u s).toBytes e.toBytes ≤ 0) := by
  refine ⟨fun a b ha _ h => ?_, fun k hk => ?_, fun a b ha hb => ⟨?_, ?_⟩, fun a b c hab hbc => ?_,
    fun u s e hs he hu => ?_⟩
  · obtain ⟨-, hle, hlt⟩ := internalShortestSeparator_spec ha (compareInternalKeys_lt_zero.mp h)
    refine ⟨compareInternalKeys_le_zero.mpr hle, compareInternalKeys_lt_zero.mpr hlt, fun hne => ?_⟩
    exact (internalShortestSeparator_between a b).resolve_left hne
  · exact compareInternalKeys_le_zero.mpr (internalShortSuccessor_spec hk).2
  · constructor
    · intro hzero
      rcases compareInternalKeys_cases a b with ⟨h, -⟩ | ⟨-, hr⟩ | ⟨h, -⟩
      · omega
      · exact internalRank_injOn ha hb hr
      · omega
    · rintro rfl
      rcases compareInternalKeys_cases a a with ⟨-, hr⟩ | ⟨h, -⟩ | ⟨-, hr⟩
      · exact absurd hr (lt_irrefl _)
      · exact h
      · exact absurd hr (lt_irrefl _)
  · rw [compareInternalKeys_lt_zero, ← not_le, ← not_le, compareInternalKeys_le_zero]
  · rw [compareInternalKeys_le_zero] at *
    exact hab.trans hbc
  · have hlookup : internalRank (makeLookupKey u s).toBytes = makeLookupKey u s :=
      internalRank_toBytes (makeInternalKey_wellFormed u _ hs).trailer_lt
    have hentry : internalRank e.toBytes = e := internalRank_toBytes he.trailer_lt
    rw [compareInternalKeys_lt_zero, compareInternalKeys_le_zero, hlookup, hentry,
      makeLookupKey_le_iff he.1 hu]
    refine ⟨fun h => ?_, id⟩
    rw [← not_le, makeLookupKey_le_iff he.1 hu]
    exact not_le.mpr h

end Ambar
