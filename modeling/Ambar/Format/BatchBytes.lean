import Ambar.Format.Readers
import Ambar.Format.WriteBatch

/-!
# The bytes of a batch

Model of `src/write_batch.cpp` on the bytes of `rep_`: a header of a `uint64_t` sequence and a
`uint32_t` count, then one tagged record for each operation. What a handler is told before an
error stays told, so `iterate` answers the operations it reported along with its status.

Results:
* `WriteBatch.joinAll_eq`: batches appended one to the next are the batch of all their
  operations.
* `WriteBatch.iterate_ok_iff`: `iterate` succeeds on exactly the bytes that are whole records,
  as many as the header says modulo `2 ^ 32`.
* `WriteBatch.batch_bytes`: what is built is iterated, inserted and reproduced as it was; and
  the count that is checked is the number of records unless these are `2 ^ 32` or more.
* `WriteBatch.wrapped_count_accepted`: `2 ^ 32` deletions under a count of zero are accepted.
-/

namespace Ambar

/-- `WriteBatchInternal::kHeader` (`src/write_batch_internal.hpp`, line 30). -/
def kBatchHeader : ℕ := 12

/-- `class WriteBatch` (`include/ambar/write_batch.hpp`, lines 30–86): `rep_` never loses its
    header. -/
@[ext]
structure WriteBatch where
  rep : Bytes
  header : kBatchHeader ≤ rep.length
deriving DecidableEq

namespace WriteBatch

/-! ## Building -/

/-- `clear` (lines 20–23). -/
def empty : WriteBatch := ⟨List.replicate kBatchHeader 0, by simp⟩

/-- `WriteBatchInternal::count` (lines 88–90). -/
def count (b : WriteBatch) : ℕ := decodeFixed ((b.rep.drop 8).take 4)

/-- `WriteBatchInternal::sequence` (lines 96–98). -/
def sequence (b : WriteBatch) : ℕ := decodeFixed (b.rep.take 8)

/-- `WriteBatchInternal::set_count` (lines 92–94). -/
def setCount (b : WriteBatch) (n : ℕ) : WriteBatch where
  rep := b.rep.take 8 ++ putFixed 4 n ++ b.rep.drop 12
  header := by
    have := b.header
    simp [kBatchHeader] at this ⊢
    omega

/-- `WriteBatchInternal::set_sequence` (lines 100–102). -/
def setSequence (b : WriteBatch) (n : ℕ) : WriteBatch where
  rep := putFixed 8 n ++ b.rep.drop 8
  header := by
    have := b.header
    simp [kBatchHeader] at this ⊢
    omega

/-- Bytes at the end of `rep_`. -/
def push (b : WriteBatch) (bytes : Bytes) : WriteBatch :=
  ⟨b.rep ++ bytes, b.header.trans (by simp)⟩

end WriteBatch

/-- The record of an operation: its tag and its strings. -/
def Op.record : Op → Bytes
  | .put key value => 1 :: (putLengthPrefixed key ++ putLengthPrefixed value)
  | .del key => 0 :: putLengthPrefixed key

namespace WriteBatch

/-- `put` (lines 29–34) and `del` (lines 36–40). -/
def add (b : WriteBatch) (op : Op) : WriteBatch :=
  (b.setCount ((b.count + 1) % 2 ^ 32)).push op.record

/-- A batch built by puts and deletes. -/
def ofOps (ops : List Op) : WriteBatch := ops.foldl add empty

/-- `WriteBatchInternal::append` (lines 113–117). -/
def append (dst src : WriteBatch) : WriteBatch :=
  (dst.setCount ((dst.count + src.count) % 2 ^ 32)).push (src.rep.drop kBatchHeader)

/-- `WriteBatchInternal::set_contents` (lines 104–111). -/
def setContents (contents : Bytes) : Except Status WriteBatch :=
  if h : contents.length < kBatchHeader then
    .error (.corruption "write batch: log record smaller than header")
  else .ok ⟨contents, not_lt.mp h⟩

/-! ## Iterating -/

/-- The `switch` of `iterate` (lines 63–80). -/
def readRecord (tag : UInt8) (input : Bytes) : Except String (Op × Bytes) :=
  if tag = 1 then
    match (do let (key, input) ← getLengthPrefixed input
              let (value, input) ← getLengthPrefixed input
              some (Op.put key value, input)) with
    | some r => .ok r
    | none => .error "write batch: truncated put record"
  else if tag = 0 then
    match getLengthPrefixed input with
    | some (key, input) => .ok (.del key, input)
    | none => .error "write batch: truncated delete record"
  else .error "write batch: unknown record tag"

/-- The loop of `iterate` (lines 58–81): the operations reported, and the records found, a
    `uint32_t`, or the failure. A turn consumes its tag, so `fuel` no less than the length of
    the input is never used up. -/
def iterateLoop : (fuel found : ℕ) → Bytes → List Op × Except String ℕ
  | _, found, [] => ([], .ok found)
  | 0, _, _ :: _ => ([], .error "write batch: unknown record tag")
  | fuel + 1, found, tag :: input =>
    match readRecord tag input with
    | .error failure => ([], .error failure)
    | .ok (op, input) =>
      let (ops, result) := iterateLoop fuel ((found + 1) % 2 ^ 32) input
      (op :: ops, result)

/-- `iterate` (lines 42–87): the calls of the handler, and the status. -/
def iterate (b : WriteBatch) : List Op × Status :=
  if b.rep.length < kBatchHeader then ([], .corruption "write batch is smaller than its header")
  else
    let input := b.rep.drop kBatchHeader
    match iterateLoop input.length 0 input with
    | (ops, .error failure) => (ops, .corruption failure)
    | (ops, .ok found) =>
      if found ≠ b.count then
        (ops, .corruption "write batch: record count does not match header")
      else (ops, .ok)

/-- The calls of `MemTable::add` by a `MemTableInserter` (lines 123–145): its sequence is a
    `uint64_t`. -/
def inserterCalls : (sequence : ℕ) → List Op → List (ℕ × Op)
  | _, [] => []
  | sequence, op :: ops => (sequence, op) :: inserterCalls ((sequence + 1) % 2 ^ 64) ops

/-- `WriteBatchInternal::insert_into` (lines 149–153): what is added, and the status. -/
def insertInto (b : WriteBatch) : List (ℕ × Op) × Status :=
  (inserterCalls b.sequence b.iterate.1, b.iterate.2)

/-! ## The header and the rest -/

/-- A batch from its parts. -/
def layout (sequence count : ℕ) (records : Bytes) : WriteBatch where
  rep := putFixed 8 sequence ++ putFixed 4 count ++ records
  header := by
    simp [kBatchHeader]
    omega

variable {s n m : ℕ} {records more : Bytes}

theorem rep_layout : (layout s n records).rep = putFixed 8 s ++ (putFixed 4 n ++ records) :=
  List.append_assoc _ _ _

theorem drop_header_layout : (layout s n records).rep.drop kBatchHeader = records :=
  List.drop_left' (by simp [kBatchHeader])

theorem count_layout (hn : n < 2 ^ 32) : (layout s n records).count = n := by
  rw [count, rep_layout, List.drop_left' (length_putFixed 8 s),
    List.take_left' (length_putFixed 4 n), @decodeFixed_put 4 n (by omega)]

theorem sequence_layout (hs : s < 2 ^ 64) : (layout s n records).sequence = s := by
  rw [sequence, rep_layout, List.take_left' (length_putFixed 8 s), @decodeFixed_put 8 s (by omega)]

theorem setCount_layout : (layout s n records).setCount m = layout s m records := by
  have hdrop : (layout s n records).rep.drop 12 = records := drop_header_layout
  refine WriteBatch.ext ?_
  show (layout s n records).rep.take 8 ++ putFixed 4 m ++ (layout s n records).rep.drop 12 = _
  rw [hdrop, rep_layout, List.take_left' (length_putFixed 8 s)]
  rfl

theorem setSequence_layout : (layout s n records).setSequence m = layout m n records := by
  refine WriteBatch.ext ?_
  show putFixed 8 m ++ (layout s n records).rep.drop 8 = _
  rw [rep_layout, List.drop_left' (length_putFixed 8 s), rep_layout]

theorem push_layout : (layout s n records).push more = layout s n (records ++ more) :=
  WriteBatch.ext (List.append_assoc _ _ _)

theorem empty_eq_layout : empty = layout 0 0 [] := by
  decide

/-! ## What is built -/

theorem add_layout (hn : n < 2 ^ 32) (op : Op) :
    (layout s n records).add op = layout s ((n + 1) % 2 ^ 32) (records ++ op.record) := by
  rw [add, count_layout hn, setCount_layout, push_layout]

theorem foldl_add_layout (ops : List Op) : ∀ {n : ℕ} {records : Bytes}, n < 2 ^ 32 →
    ops.foldl add (layout s n records) =
      layout s ((n + ops.length) % 2 ^ 32) (records ++ ops.flatMap Op.record) := by
  induction ops with
  | nil =>
    intro n records hn
    rw [List.foldl_nil, List.length_nil, Nat.add_zero, Nat.mod_eq_of_lt hn, List.flatMap_nil,
      List.append_nil]
  | cons op ops ih =>
    intro n records hn
    rw [List.foldl_cons, add_layout hn, ih (Nat.mod_lt _ (by norm_num)), List.flatMap_cons,
      List.append_assoc, Nat.mod_add_mod, List.length_cons, Nat.add_assoc, Nat.add_comm 1]

theorem ofOps_eq (ops : List Op) :
    ofOps ops = layout 0 (ops.length % 2 ^ 32) (ops.flatMap Op.record) := by
  rw [ofOps, empty_eq_layout, foldl_add_layout ops (by norm_num), Nat.zero_add, List.nil_append]

theorem append_layout {s' n' : ℕ} (hn : n < 2 ^ 32) (hn' : n' < 2 ^ 32) :
    (layout s n records).append (layout s' n' more) =
      layout s ((n + n') % 2 ^ 32) (records ++ more) := by
  rw [append, count_layout hn, count_layout hn', setCount_layout, push_layout, drop_header_layout]

theorem append_ofOps (a b : List Op) : (ofOps a).append (ofOps b) = ofOps (a ++ b) := by
  rw [ofOps_eq, ofOps_eq, append_layout (Nat.mod_lt _ (by norm_num)) (Nat.mod_lt _ (by norm_num)),
    ofOps_eq, ← Nat.add_mod, List.length_append, List.flatMap_append]

/-- No record is empty. -/
theorem length_le_rep (ops : List Op) : ops.length ≤ (ofOps ops).rep.length := by
  have hrecords : ops.length ≤ (ops.flatMap Op.record).length := by
    induction ops with
    | nil => exact le_rfl
    | cons op ops ih =>
      have hop : 1 ≤ op.record.length := by
        cases op <;> simp [Op.record]
      rw [List.flatMap_cons, List.length_append, List.length_cons]
      omega
  rw [ofOps_eq, rep_layout, List.length_append, List.length_append]
  omega

/-- The first batch with the others appended in order, as `build_batch_group` joins them. -/
def joinAll (first : List Op) (others : List (List Op)) : WriteBatch :=
  others.foldl (fun dst ops => dst.append (ofOps ops)) (ofOps first)

/-- Joined batches are the batch of all the operations. -/
theorem joinAll_eq (others : List (List Op)) :
    ∀ first, joinAll first others = ofOps (first ++ others.flatten) := by
  induction others with
  | nil =>
    intro first
    rw [joinAll, List.foldl_nil, List.flatten_nil, List.append_nil]
  | cons ops others ih =>
    intro first
    rw [joinAll, List.foldl_cons, append_ofOps, List.flatten_cons, ← List.append_assoc]
    exact ih (first ++ ops)

/-! ## What is read -/

end WriteBatch

/-- The bytes are whole records, one after the other: a tag, and the strings of the operation. -/
inductive Records : Bytes → List Op → Prop
  | nil : Records [] []
  | put {input input' rest key value : Bytes} {ops : List Op} :
    getLengthPrefixed input = some (key, input') → getLengthPrefixed input' = some (value, rest) →
    Records rest ops → Records (1 :: input) (.put key value :: ops)
  | del {input rest key : Bytes} {ops : List Op} :
    getLengthPrefixed input = some (key, rest) → Records rest ops →
    Records (0 :: input) (.del key :: ops)

/-- The strings of the operation fit their length prefixes. -/
def Op.Fits : Op → Prop
  | .put key value => key.length < 2 ^ 32 ∧ value.length < 2 ^ 32
  | .del key => key.length < 2 ^ 32

instance Op.decidableFits : ∀ op : Op, Decidable op.Fits
  | .put _ _ => inferInstanceAs (Decidable (_ ∧ _))
  | .del _ => inferInstanceAs (Decidable (_ < _))

theorem records_flatMap {ops : List Op} (h : ∀ op ∈ ops, op.Fits) :
    Records (ops.flatMap Op.record) ops := by
  induction ops with
  | nil => exact .nil
  | cons op ops ih =>
    have hop := h op List.mem_cons_self
    have hrest := ih fun o ho => h o (List.mem_cons_of_mem _ ho)
    rw [List.flatMap_cons]
    cases op with
    | put key value =>
      rw [Op.record, List.cons_append, List.append_assoc]
      exact .put (getLengthPrefixed_put hop.1 _) (getLengthPrefixed_put hop.2 _) hrest
    | del key =>
      rw [Op.record, List.cons_append]
      exact .del (getLengthPrefixed_put hop _) hrest

namespace WriteBatch

/-- What the `switch` can read. -/
theorem readRecord_eq_ok {tag : UInt8} {input rest : Bytes} {op : Op} :
    readRecord tag input = .ok (op, rest) ↔
      (tag = 1 ∧ ∃ key value input', getLengthPrefixed input = some (key, input') ∧
        getLengthPrefixed input' = some (value, rest) ∧ op = .put key value) ∨
      (tag = 0 ∧ ∃ key, getLengthPrefixed input = some (key, rest) ∧ op = .del key) := by
  constructor
  · intro h
    rw [readRecord] at h
    split_ifs at h with h1 h0
    · split at h
      · rename_i r hget
        cases h
        obtain ⟨⟨key, input'⟩, hkey, hget⟩ := Option.bind_eq_some_iff.mp hget
        obtain ⟨⟨value, rest'⟩, hvalue, hget⟩ := Option.bind_eq_some_iff.mp hget
        cases hget
        exact Or.inl ⟨h1, key, value, input', hkey, hvalue, rfl⟩
      · exact nomatch h
    · split at h
      · rename_i key rest' hkey
        cases h
        exact Or.inr ⟨h0, key, hkey, rfl⟩
      · exact nomatch h
  · rintro (⟨rfl, key, value, input', hkey, hvalue, rfl⟩ | ⟨rfl, key, hkey, rfl⟩)
    · rw [readRecord, if_pos rfl, hkey, Option.bind_eq_bind, Option.bind_some]
      simp only [hvalue, Option.bind_some]
    · rw [readRecord, if_neg (by decide), if_pos rfl, hkey]

theorem readRecord_length_le {tag : UInt8} {input rest : Bytes} {op : Op}
    (h : readRecord tag input = .ok (op, rest)) : rest.length ≤ input.length := by
  rcases readRecord_eq_ok.mp h with ⟨-, _, _, _, hkey, hvalue, -⟩ | ⟨-, _, hkey, -⟩
  · exact (getLengthPrefixed_length_le hvalue).trans (getLengthPrefixed_length_le hkey)
  · exact getLengthPrefixed_length_le hkey

theorem records_cons_iff {tag : UInt8} {input : Bytes} {ops : List Op} :
    Records (tag :: input) ops ↔ ∃ op rest ops', ops = op :: ops' ∧
      readRecord tag input = .ok (op, rest) ∧ Records rest ops' := by
  constructor
  · intro h
    cases h with
    | put hkey hvalue hrest =>
      exact ⟨_, _, _, rfl, readRecord_eq_ok.mpr (Or.inl ⟨rfl, _, _, _, hkey, hvalue, rfl⟩), hrest⟩
    | del hkey hrest =>
      exact ⟨_, _, _, rfl, readRecord_eq_ok.mpr (Or.inr ⟨rfl, _, hkey, rfl⟩), hrest⟩
  · rintro ⟨op, rest, ops, rfl, hread, hrest⟩
    rcases readRecord_eq_ok.mp hread with ⟨rfl, _, _, _, hkey, hvalue, rfl⟩ | ⟨rfl, _, hkey, rfl⟩
    · exact .put hkey hvalue hrest
    · exact .del hkey hrest

/-- Bytes are records in one way only. -/
theorem records_unique {input : Bytes} {ops ops' : List Op} (h : Records input ops)
    (h' : Records input ops') : ops = ops' := by
  induction ops generalizing input ops' with
  | nil =>
    cases h
    cases h'
    rfl
  | cons op ops ih =>
    cases input with
    | nil => exact nomatch h
    | cons tag input =>
      obtain ⟨op₁, rest₁, ops₁, heq, hread₁, hr₁⟩ := records_cons_iff.mp h
      obtain ⟨op₂, rest₂, ops₂, rfl, hread₂, hr₂⟩ := records_cons_iff.mp h'
      cases heq
      cases hread₁.symm.trans hread₂
      rw [ih hr₁ hr₂]

/-- The loop goes through exactly the inputs that are whole records. -/
theorem iterateLoop_eq_ok : ∀ {fuel found : ℕ} {input : Bytes} {ops : List Op} {n : ℕ},
    input.length ≤ fuel → found < 2 ^ 32 →
    (iterateLoop fuel found input = (ops, .ok n) ↔
      Records input ops ∧ n = (found + ops.length) % 2 ^ 32) := by
  have hnil : ∀ {fuel found : ℕ} {ops : List Op} {n : ℕ}, found < 2 ^ 32 →
      (iterateLoop fuel found [] = (ops, .ok n) ↔
        Records [] ops ∧ n = (found + ops.length) % 2 ^ 32) := by
    intro fuel found ops n hfound
    have heq : iterateLoop fuel found [] = ([], .ok found) := by cases fuel <;> rfl
    rw [heq]
    constructor
    · intro h
      cases h
      exact ⟨.nil, (Nat.mod_eq_of_lt hfound).symm⟩
    · rintro ⟨hr, rfl⟩
      cases hr
      rw [List.length_nil, Nat.add_zero, Nat.mod_eq_of_lt hfound]
  intro fuel
  induction fuel with
  | zero =>
    intro found input ops n hlen hfound
    rw [List.eq_nil_of_length_eq_zero (Nat.le_zero.mp hlen)]
    exact hnil hfound
  | succ fuel ih =>
    intro found input ops n hlen hfound
    cases input with
    | nil => exact hnil hfound
    | cons tag input =>
      rw [records_cons_iff, iterateLoop]
      have hlen' : input.length ≤ fuel := Nat.le_of_succ_le_succ hlen
      constructor
      · intro h
        cases hread : readRecord tag input with
        | error failure => simp [hread] at h
        | ok r =>
          obtain ⟨op, rest⟩ := r
          cases hloop : iterateLoop fuel ((found + 1) % 2 ^ 32) rest with
          | mk ops' result =>
            simp only [hread, hloop, Prod.mk.injEq] at h
            obtain ⟨rfl, rfl⟩ := h
            have hrest := (readRecord_length_le hread).trans hlen'
            obtain ⟨hr, rfl⟩ := (ih hrest (Nat.mod_lt (found + 1) (by norm_num))).mp hloop
            refine ⟨⟨op, rest, ops', rfl, rfl, hr⟩, ?_⟩
            rw [Nat.mod_add_mod, List.length_cons, Nat.add_assoc, Nat.add_comm 1]
      · rintro ⟨⟨op, rest, ops, rfl, hread, hr⟩, rfl⟩
        have hrest := (readRecord_length_le hread).trans hlen'
        have hloop := (ih hrest (Nat.mod_lt (found + 1) (by norm_num))).mpr ⟨hr, rfl⟩
        simp only [hread, hloop]
        rw [Nat.mod_add_mod, List.length_cons, Nat.add_assoc, Nat.add_comm 1]

/-- `iterate` succeeds on the bytes that are whole records, as many as the header says modulo
    `2 ^ 32`. -/
theorem iterate_ok_iff {b : WriteBatch} {ops : List Op} :
    b.iterate = (ops, .ok) ↔
      Records (b.rep.drop kBatchHeader) ops ∧ ops.length % 2 ^ 32 = b.count := by
  have hloop : ∀ n, iterateLoop (b.rep.drop kBatchHeader).length 0 (b.rep.drop kBatchHeader) =
      (ops, .ok n) ↔ Records (b.rep.drop kBatchHeader) ops ∧ n = ops.length % 2 ^ 32 := by
    intro n
    rw [iterateLoop_eq_ok le_rfl (by norm_num), Nat.zero_add]
  rw [iterate, if_neg (not_lt.mpr b.header)]
  dsimp only
  constructor
  · intro h
    split at h
    · exact nomatch h
    · rename_i ops' found heq
      split_ifs at h with hcount
      · exact nomatch h
      · cases h
        obtain ⟨hr, rfl⟩ := (hloop found).mp heq
        exact ⟨hr, not_not.mp hcount⟩
  · rintro ⟨hr, hcount⟩
    rw [(hloop _).mpr ⟨hr, rfl⟩]
    exact if_neg (not_not.mpr hcount)

/-! ## Both together -/

theorem inserterCalls_eq (n : ℕ) (ops : List Op) : ∀ k,
    inserterCalls ((n + k) % 2 ^ 64) ops =
      (ops.zipIdx k).map fun p => ((n + p.2) % 2 ^ 64, p.1) := by
  induction ops with
  | nil => exact fun _ => rfl
  | cons op ops ih =>
    intro k
    rw [inserterCalls, Nat.mod_add_mod, Nat.add_assoc, ih (k + 1), List.zipIdx_cons, List.map_cons]

/-- What is built of operations that fit reports them all, however many they are. -/
theorem iterate_layout {ops : List Op} (hfits : ∀ op ∈ ops, op.Fits) :
    (layout s (ops.length % 2 ^ 32) (ops.flatMap Op.record)).iterate = (ops, .ok) := by
  refine iterate_ok_iff.mpr ⟨?_, ?_⟩
  · rw [drop_header_layout]
    exact records_flatMap hfits
  · rw [count_layout (Nat.mod_lt _ (by norm_num))]

theorem insertInto_layout {ops : List Op} (hfits : ∀ op ∈ ops, op.Fits) (hs : s < 2 ^ 64) :
    (layout s (ops.length % 2 ^ 32) (ops.flatMap Op.record)).insertInto =
      (ops.zipIdx.map fun p => ((s + p.2) % 2 ^ 64, p.1), .ok) := by
  have hcalls := inserterCalls_eq s ops 0
  rw [Nat.add_zero, Nat.mod_eq_of_lt hs] at hcalls
  rw [insertInto, iterate_layout hfits, sequence_layout hs, hcalls]

/-- `set_contents` and `iterate` on a byte string: whether both succeed. -/
def Accepts (contents : Bytes) : Prop :=
  ∃ b ops, setContents contents = .ok b ∧ b.iterate = (ops, .ok)

/-- The count in the header of a byte string. -/
def headerCount (contents : Bytes) : ℕ := decodeFixed ((contents.drop 8).take 4)

theorem accepts_iff (contents : Bytes) :
    Accepts contents ↔ kBatchHeader ≤ contents.length ∧
      ∃ ops, Records (contents.drop kBatchHeader) ops ∧
        ops.length % 2 ^ 32 = headerCount contents := by
  constructor
  · rintro ⟨b, ops, hset, hiter⟩
    rw [setContents] at hset
    split_ifs at hset with hlen
    cases hset
    exact ⟨not_lt.mp hlen, ops, iterate_ok_iff.mp hiter⟩
  · rintro ⟨hlen, ops, hr⟩
    exact ⟨⟨contents, hlen⟩, ops, dif_neg (not_lt.mpr hlen), iterate_ok_iff.mpr hr⟩

/-- **Batches and their bytes.** Batches of fewer than `2 ^ 32` operations, joined in order, report
    their operations in order, insert them at consecutive sequences and are reproduced from
    their bytes. A byte string is accepted exactly when it is a header and whole records, as
    many as the header says, unless these are `2 ^ 32` or more. -/
theorem batch_bytes (first : List Op) (others : List (List Op)) (contents : Bytes) :
    ((first ++ others.flatten).length < 2 ^ 32 → (∀ op ∈ first ++ others.flatten, op.Fits) →
      (joinAll first others).iterate = (first ++ others.flatten, .ok) ∧
      (∀ n < 2 ^ 64, ((joinAll first others).setSequence n).insertInto =
        ((first ++ others.flatten).zipIdx.map fun p => ((n + p.2) % 2 ^ 64, p.1), .ok)) ∧
      setContents (joinAll first others).rep = .ok (joinAll first others)) ∧
    ((Accepts contents ↔ kBatchHeader ≤ contents.length ∧
        ∃ ops, Records (contents.drop kBatchHeader) ops ∧ ops.length = headerCount contents) ↔
      ∀ ops, Records (contents.drop kBatchHeader) ops →
        ops.length % 2 ^ 32 = headerCount contents → ops.length < 2 ^ 32) := by
  refine ⟨fun hlen hfits => ?_, ?_⟩
  · rw [joinAll_eq]
    generalize first ++ others.flatten = ops at hlen hfits ⊢
    rw [ofOps_eq]
    exact ⟨iterate_layout hfits, fun n hn => by rw [setSequence_layout, insertInto_layout hfits hn],
      dif_neg (not_lt.mpr (layout _ _ _).header)⟩
  · rw [accepts_iff]
    constructor
    · -- the records that are counted modulo `2 ^ 32` are the ones that are counted
      intro hiff ops hr hcount
      by_cases hlen : kBatchHeader ≤ contents.length
      · obtain ⟨-, ops', hr', hcount'⟩ := hiff.mp ⟨hlen, ops, hr, hcount⟩
        rw [records_unique hr hr', hcount', ← hcount]
        exact Nat.mod_lt _ (by norm_num)
      · rw [List.drop_of_length_le (not_le.mp hlen).le] at hr
        cases hr
        norm_num
    · intro hsmall
      refine and_congr_right fun _ => exists_congr fun ops => and_congr_right fun hr => ?_
      constructor
      · intro hcount
        rw [← hcount, Nat.mod_eq_of_lt (hsmall ops hr hcount)]
      · intro hcount
        have hlt : ops.length < 2 ^ 32 := by
          rw [hcount, headerCount]
          have htake : ((contents.drop 8).take 4).length ≤ 4 := List.length_take_le _ _
          calc decodeFixed ((contents.drop 8).take 4)
              < 256 ^ ((contents.drop 8).take 4).length := decodeFixed_lt _
            _ ≤ 256 ^ 4 := Nat.pow_le_pow_right (by norm_num) htake
            _ = 2 ^ 32 := by norm_num
        rw [Nat.mod_eq_of_lt hlt, hcount]

/-! ## A count that wraps -/

/-- A header of zeros and as many deletions of the empty key. -/
def deletions (n : ℕ) : Bytes := (layout 0 0 ((List.replicate n (Op.del [])).flatMap Op.record)).rep

/-- **A wrong count is accepted.** The `2 ^ 32` records are all reported, the header counts none,
    and `iterate` answers ok. -/
theorem wrapped_count_accepted :
    Accepts (deletions (2 ^ 32)) ∧ headerCount (deletions (2 ^ 32)) = 0 ∧
      ¬ ∃ ops, Records ((deletions (2 ^ 32)).drop kBatchHeader) ops ∧
        ops.length = headerCount (deletions (2 ^ 32)) := by
  have hcount : ∀ n, headerCount (deletions n) = 0 := fun n =>
    (count_layout (by norm_num) : (layout 0 0 _).count = 0)
  have hrecords : ∀ n, Records ((deletions n).drop kBatchHeader) (List.replicate n (Op.del [])) := by
    intro n
    rw [deletions, drop_header_layout]
    refine records_flatMap fun op hop => ?_
    rw [List.eq_of_mem_replicate hop]
    exact (by norm_num : 0 < 2 ^ 32)
  refine ⟨(accepts_iff _).mpr ⟨(layout _ _ _).header, _, hrecords _, ?_⟩, hcount _, ?_⟩
  · rw [hcount, List.length_replicate, Nat.mod_self]
  · rintro ⟨ops, hr, hlen⟩
    have hsame := congrArg List.length (records_unique hr (hrecords _))
    rw [hlen, hcount, List.length_replicate] at hsame
    norm_num at hsame

end WriteBatch

end Ambar
