import Ambar.Format.Encoding
import Mathlib.Data.Char
import Mathlib.Data.Nat.Digits.Defs

/-!
# File names

The names of a database's files (`src/filename.cpp`). A file is written under one name,
its number in at least six digits; a directory may hold other names with the same
number, and they parse too. A name is a list of characters, one for each byte.

* `parseNumber_eq_some`: a text is a number if it is up to 20 digits below 2^64.
* `parseFileName_numbered`: the names the engine writes parse back.
* `parseFileName_value`: the number of a name that parses is the decimal value of its digits.
* `parseFileName_exact`: both, for the names of every 64-bit number and for every name.
-/

namespace Ambar

abbrev FileName := List Char

/-- `FileType` (`src/filename.hpp`). -/
inductive FileType where
  | log
  | lock
  | table
  | descriptor
  | current
  | temp
  | infoLog
deriving DecidableEq, Repr

/-! ## Names -/

/-- `%06llu`. -/
def sixDigits (number : ℕ) : FileName :=
  List.replicate (6 - (Nat.toDigits 10 number).length) '0' ++ Nat.toDigits 10 number

/-- `numbered` (lines 34–42), without the directory. -/
def numbered (number : ℕ) (suffix : FileName) : FileName := sixDigits number ++ '.' :: suffix

/-- `log_file_name` (lines 46–48). -/
def logFileName (number : ℕ) : FileName := numbered number ['l', 'o', 'g']

/-- `table_file_name` (lines 50–52). -/
def tableFileName (number : ℕ) : FileName := numbered number ['s', 's', 't']

/-- `temp_file_name` (lines 69–71). -/
def tempFileName (number : ℕ) : FileName := numbered number ['d', 'b', 't', 'm', 'p']

/-- `kManifestPrefix` (line 95). -/
def kManifestPrefix : FileName := ['M', 'A', 'N', 'I', 'F', 'E', 'S', 'T', '-']

/-- `descriptor_file_name` (lines 54–59). -/
def descriptorFileName (number : ℕ) : FileName := kManifestPrefix ++ sixDigits number

/-- `current_file_name` (lines 61–63). -/
def currentFileName : FileName := ['C', 'U', 'R', 'R', 'E', 'N', 'T']

/-- `lock_file_name` (lines 65–67). -/
def lockFileName : FileName := ['L', 'O', 'C', 'K']

/-- `info_log_file_name` (lines 73–75). -/
def infoLogFileName : FileName := ['L', 'O', 'G']

/-- The name an earlier information log is kept under (line 89). -/
def oldInfoLogFileName : FileName := ['L', 'O', 'G', '.', 'o', 'l', 'd']

/-! ## Parsing -/

/-- The loop of `parse_number` (lines 23–29), whose accumulator is a `uint64_t`. -/
def parseDigits : (result : ℕ) → FileName → Option ℕ
  | result, [] => some result
  | result, c :: text =>
    if c < '0' ∨ '9' < c then none
    else
      let digit := c.toNat - '0'.toNat
      if (2 ^ 64 - 1 - digit) / 10 < result then none
      else parseDigits ((result * 10 + digit) % 2 ^ 64) text

/-- `parse_number` (lines 20–32). -/
def parseNumber (text : FileName) : Option ℕ :=
  if text = [] ∨ 20 < text.length then none else parseDigits 0 text

/-- The type a suffix stands for (lines 112–121). -/
def typeOf (suffix : FileName) : Option FileType :=
  if suffix = ['l', 'o', 'g'] then some .log
  else if suffix = ['s', 's', 't'] then some .table
  else if suffix = ['d', 'b', 't', 'm', 'p'] then some .temp
  else none

/-- `parse_file_name` (lines 77–124). -/
def parseFileName (filename : FileName) : Option (ℕ × FileType) :=
  if filename = currentFileName then some (0, .current)
  else if filename = lockFileName then some (0, .lock)
  else if filename = infoLogFileName ∨ filename = oldInfoLogFileName then some (0, .infoLog)
  else if filename.take kManifestPrefix.length = kManifestPrefix then
    (parseNumber (filename.drop kManifestPrefix.length)).map (·, .descriptor)
  else
    let dot := filename.idxOf '.'
    if dot = filename.length ∨ dot = 0 then none
    else
      match parseNumber (filename.take dot), typeOf (filename.drop (dot + 1)) with
      | some value, some type => some (value, type)
      | _, _ => none

/-! ## Numbers -/

theorem isDigit_iff (c : Char) : c.isDigit = true ↔ ¬ (c < '0' ∨ '9' < c) := by
  simp only [Char.isDigit, Char.lt_def, not_or, UInt32.not_lt, Bool.and_eq_true, decide_eq_true_eq]

theorem digit_le {c : Char} (h : ¬ (c < '0' ∨ '9' < c)) : c.toNat - '0'.toNat ≤ 9 := by
  have hle : c ≤ '9' := not_lt.mp fun hlt => h (.inr hlt)
  have : c.toNat ≤ '9'.toNat := hle
  have : '9'.toNat - '0'.toNat = 9 := rfl
  omega

theorem le_ofDigitChars (text : FileName) : ∀ (result : ℕ), result ≤ Nat.ofDigitChars 10 text result := by
  induction text with
  | nil => exact fun _ => le_rfl
  | cons c text ih =>
    intro result
    rw [Nat.ofDigitChars_cons]
    exact (by omega : result ≤ _).trans (ih _)

/-- A run of digits is accepted as long as its value stays below 2^64. -/
theorem parseDigits_eq_some {text : FileName} {n : ℕ} :
    ∀ {result : ℕ}, result < 2 ^ 64 →
      (parseDigits result text = some n ↔
        (∀ c ∈ text, c.isDigit = true) ∧ Nat.ofDigitChars 10 text result = n ∧ n < 2 ^ 64) := by
  induction text with
  | nil =>
    intro result hlt
    simp only [parseDigits, List.not_mem_nil, Nat.ofDigitChars_nil]
    constructor
    · intro h
      obtain rfl := Option.some.inj h
      exact ⟨fun _ h => h.elim, rfl, hlt⟩
    · rintro ⟨-, rfl, -⟩
      rfl
  | cons c text ih =>
    intro result hlt
    rw [parseDigits, Nat.ofDigitChars_cons, List.forall_mem_cons, isDigit_iff]
    by_cases hdigit : c < '0' ∨ '9' < c
    · rw [if_pos hdigit]
      simp [hdigit]
    · rw [if_neg hdigit]
      have hnine := digit_le hdigit
      simp only
      split_ifs with hover
      · -- one digit more is too much already, and the value only grows
        refine ⟨fun h => by simp at h, ?_⟩
        rintro ⟨-, rfl, hlt'⟩
        have := le_ofDigitChars text (10 * result + (c.toNat - '0'.toNat))
        omega
      · rw [Nat.mod_eq_of_lt (by omega), ih (by omega), mul_comm]
        simp only [hdigit, not_false_eq_true, true_and]

/-- A text is a number if it is up to 20 digits and below 2^64. -/
theorem parseNumber_eq_some {text : FileName} {n : ℕ} :
    parseNumber text = some n ↔
      (text ≠ [] ∧ text.length ≤ 20) ∧ (∀ c ∈ text, c.isDigit = true) ∧
        Nat.ofDigitChars 10 text 0 = n ∧ n < 2 ^ 64 := by
  unfold parseNumber
  split_ifs with h
  · refine ⟨fun h => by simp at h, ?_⟩
    rintro ⟨⟨hne, hlen⟩, -⟩
    rcases h with h | h
    · exact absurd h hne
    · omega
  · rw [parseDigits_eq_some (by decide)]
    rw [not_or, not_lt] at h
    exact ⟨fun hp => ⟨h, hp⟩, fun hp => hp.2⟩

/-! ## Names that are written -/

theorem ofDigitChars_zeros (k : ℕ) (text : FileName) :
    Nat.ofDigitChars 10 (List.replicate k '0' ++ text) 0 = Nat.ofDigitChars 10 text 0 := by
  induction k with
  | zero => rfl
  | succ k ih =>
    rw [List.replicate_succ, List.cons_append, Nat.ofDigitChars_cons]
    exact ih

theorem isDigit_sixDigits {number : ℕ} : ∀ c ∈ sixDigits number, c.isDigit = true := by
  intro c hc
  rcases List.mem_append.mp hc with hc | hc
  · rw [List.eq_of_mem_replicate hc]
    rfl
  · exact Nat.isDigit_of_mem_toDigits (by decide) (by decide) hc

theorem sixDigits_ne_nil (number : ℕ) : sixDigits number ≠ [] :=
  List.append_ne_nil_of_right_ne_nil _ Nat.toDigits_ne_nil

theorem ofDigitChars_sixDigits (number : ℕ) : Nat.ofDigitChars 10 (sixDigits number) 0 = number := by
  rw [sixDigits, ofDigitChars_zeros, Nat.ofDigitChars_toDigits (by decide) (by decide)]

theorem sixDigits_injective : Function.Injective sixDigits := fun a b h => by
  rw [← ofDigitChars_sixDigits a, h, ofDigitChars_sixDigits]

/-- A number in six digits or more is read back, if it is read at all. -/
theorem eq_of_parseNumber_sixDigits {number n : ℕ} (h : parseNumber (sixDigits number) = some n) :
    n = number :=
  (parseNumber_eq_some.mp h).2.2.1.symm.trans (ofDigitChars_sixDigits number)

theorem parseNumber_sixDigits {number : ℕ} (h : number < 2 ^ 64) :
    parseNumber (sixDigits number) = some number := by
  refine parseNumber_eq_some.mpr ⟨⟨sixDigits_ne_nil number, ?_⟩, isDigit_sixDigits,
    ofDigitChars_sixDigits number, h⟩
  have : (Nat.toDigits 10 number).length ≤ 20 :=
    Nat.toDigits_length 10 number 20 (by decide) (h.trans (by decide))
  rw [sixDigits, List.length_append, List.length_replicate]
  omega

/-- A numbered name begins with a digit. -/
theorem numbered_ne_cons {number : ℕ} {suffix : FileName} (d : Char) (ds : FileName)
    (hd : d.isDigit = false) : numbered number suffix ≠ d :: ds := by
  obtain ⟨c, rest, hc⟩ := List.exists_cons_of_ne_nil (sixDigits_ne_nil number)
  have hdigit : c.isDigit = true := isDigit_sixDigits c (hc ▸ List.mem_cons_self)
  intro heq
  rw [numbered, hc, List.cons_append] at heq
  rw [(List.cons.inj heq).1, hd] at hdigit
  cases hdigit

/-- What a numbered name parses to. -/
theorem parseFileName_numbered {number : ℕ} {suffix : FileName} {type : FileType}
    (hsuffix : typeOf suffix = some type) :
    parseFileName (numbered number suffix) = (parseNumber (sixDigits number)).map (·, type) := by
  have hmanifest : (numbered number suffix).take kManifestPrefix.length ≠ kManifestPrefix := by
    intro heq
    have hname := (List.take_append_drop kManifestPrefix.length (numbered number suffix)).symm.trans
      (congrArg (· ++ (numbered number suffix).drop kManifestPrefix.length) heq)
    exact numbered_ne_cons 'M' _ rfl hname
  have hdot : (numbered number suffix).idxOf '.' = (sixDigits number).length := by
    have hnot : '.' ∉ sixDigits number := fun hmem => nomatch isDigit_sixDigits _ hmem
    rw [numbered, List.idxOf_append_of_notMem hnot, List.idxOf_cons_self, Nat.add_zero]
  have hlen : (numbered number suffix).length = (sixDigits number).length + suffix.length + 1 := by
    rw [numbered, List.length_append, List.length_cons]
    omega
  have hpos : 0 < (sixDigits number).length := List.length_pos_iff.mpr (sixDigits_ne_nil number)
  have htake : (numbered number suffix).take (sixDigits number).length = sixDigits number :=
    List.take_left
  have hdrop : (numbered number suffix).drop ((sixDigits number).length + 1) = suffix := by
    rw [numbered, ← List.drop_drop, List.drop_left]
    rfl
  have hcurrent : numbered number suffix ≠ currentFileName := numbered_ne_cons 'C' _ rfl
  have hlock : numbered number suffix ≠ lockFileName := numbered_ne_cons 'L' _ rfl
  have hinfo : numbered number suffix ≠ infoLogFileName := numbered_ne_cons 'L' _ rfl
  have hold : numbered number suffix ≠ oldInfoLogFileName := numbered_ne_cons 'L' _ rfl
  unfold parseFileName
  rw [if_neg hcurrent, if_neg hlock, if_neg (not_or.mpr ⟨hinfo, hold⟩), if_neg hmanifest]
  simp only [hdot, htake, hdrop, hsuffix]
  rw [if_neg (by omega)]
  cases parseNumber (sixDigits number) with
  | none => rfl
  | some n => rfl

/-- **Numbered names parse back.** -/
theorem parseFileName_numbered_of_lt {number : ℕ} {suffix : FileName} {type : FileType}
    (hsuffix : typeOf suffix = some type) (h : number < 2 ^ 64) :
    parseFileName (numbered number suffix) = some (number, type) := by
  rw [parseFileName_numbered hsuffix, parseNumber_sixDigits h]
  rfl

/-! ## The names of manifests -/

theorem descriptorFileName_injective : Function.Injective descriptorFileName := fun _ _ h =>
  sixDigits_injective (List.append_cancel_left h)

theorem parseFileName_descriptor (number : ℕ) :
    parseFileName (descriptorFileName number) =
      (parseNumber (sixDigits number)).map (·, .descriptor) := by
  have htake : (descriptorFileName number).take kManifestPrefix.length = kManifestPrefix :=
    List.take_left
  have hdrop : (descriptorFileName number).drop kManifestPrefix.length = sixDigits number :=
    List.drop_left
  have hM : ∃ ds, descriptorFileName number = 'M' :: ds := ⟨_, rfl⟩
  obtain ⟨ds, hds⟩ := hM
  have hne : ∀ (c : Char) (cs : FileName), c ≠ 'M' → descriptorFileName number ≠ c :: cs :=
    fun c cs hc heq => hc (List.cons.inj (hds.symm.trans heq)).1.symm
  unfold parseFileName
  rw [if_neg (show descriptorFileName number ≠ currentFileName from hne 'C' _ (by decide)),
    if_neg (show descriptorFileName number ≠ lockFileName from hne 'L' _ (by decide)),
    if_neg (not_or.mpr ⟨show descriptorFileName number ≠ infoLogFileName from hne 'L' _ (by decide),
      show descriptorFileName number ≠ oldInfoLogFileName from hne 'L' _ (by decide)⟩),
    if_pos htake, hdrop]

/-! ## Names that are accepted -/

/-- A name that parses as a numbered file is a run of digits between the prefix and the suffix
    of its type, and its number is their decimal value. -/
theorem parseFileName_value {name : FileName} {n : ℕ} {type : FileType}
    (hparse : parseFileName name = some (n, type)) (hcurrent : type ≠ .current) (hlock : type ≠ .lock)
    (hinfo : type ≠ .infoLog) :
    ∃ digits, ((type = .descriptor ∧ name = kManifestPrefix ++ digits) ∨
        ∃ suffix, typeOf suffix = some type ∧ name = digits ++ '.' :: suffix) ∧
      digits ≠ [] ∧ (∀ c ∈ digits, c.isDigit = true) ∧ Nat.ofDigitChars 10 digits 0 = n := by
  unfold parseFileName at hparse
  split_ifs at hparse with h₁ h₂ h₃ hmanifest
  · exact absurd (Prod.mk.inj (Option.some.inj hparse)).2.symm hcurrent
  · exact absurd (Prod.mk.inj (Option.some.inj hparse)).2.symm hlock
  · exact absurd (Prod.mk.inj (Option.some.inj hparse)).2.symm hinfo
  · obtain ⟨value, hvalue, heq⟩ := Option.map_eq_some_iff.mp hparse
    obtain ⟨rfl, rfl⟩ := Prod.mk.inj heq
    obtain ⟨⟨hne, -⟩, hdigits, hdecimal, -⟩ := parseNumber_eq_some.mp hvalue
    refine ⟨name.drop kManifestPrefix.length, .inl ⟨rfl, ?_⟩, hne, hdigits, hdecimal⟩
    conv_lhs => rw [← List.take_append_drop kManifestPrefix.length name, hmanifest]
  · dsimp only at hparse
    split_ifs at hparse with hdot
    split at hparse
    · rename_i value type' hvalue htype
      obtain ⟨rfl, rfl⟩ := Prod.mk.inj (Option.some.inj hparse)
      obtain ⟨⟨hne, -⟩, hdigits, hdecimal, -⟩ := parseNumber_eq_some.mp hvalue
      refine ⟨name.take (name.idxOf '.'), .inr ⟨_, htype, ?_⟩, hne, hdigits, hdecimal⟩
      have hlt : name.idxOf '.' < name.length :=
        lt_of_le_of_ne List.idxOf_le_length fun heq => hdot (.inl heq)
      -- the dot stands between the two parts
      have hcons : name.drop (name.idxOf '.') = '.' :: name.drop (name.idxOf '.' + 1) := by
        rw [List.drop_eq_getElem_cons hlt, List.getElem_idxOf hlt]
      rw [← hcons, List.take_append_drop]
    · cases hparse

/-- **File names.** The names written for any 64-bit number parse to this number and their kind;
    and the number of any name that parses as a numbered file is the decimal value of its
    digits, which are all of the name but the prefix or suffix of its kind. -/
theorem parseFileName_exact :
    (∀ n < 2 ^ 64, parseFileName (logFileName n) = some (n, .log) ∧
      parseFileName (tableFileName n) = some (n, .table) ∧
      parseFileName (tempFileName n) = some (n, .temp) ∧
      parseFileName (descriptorFileName n) = some (n, .descriptor)) ∧
    ∀ name n type, parseFileName name = some (n, type) →
      type = .log ∨ type = .table ∨ type = .temp ∨ type = .descriptor →
      ∃ digits, ((type = .descriptor ∧ name = kManifestPrefix ++ digits) ∨
          ∃ suffix, typeOf suffix = some type ∧ name = digits ++ '.' :: suffix) ∧
        digits ≠ [] ∧ (∀ c ∈ digits, c.isDigit = true) ∧ Nat.ofDigitChars 10 digits 0 = n := by
  refine ⟨fun n hn => ⟨?_, ?_, ?_, ?_⟩, fun name n type hparse htype => ?_⟩
  · exact parseFileName_numbered_of_lt rfl hn
  · exact parseFileName_numbered_of_lt rfl hn
  · exact parseFileName_numbered_of_lt rfl hn
  · rw [parseFileName_descriptor, parseNumber_sixDigits hn]
    rfl
  · refine parseFileName_value hparse ?_ ?_ ?_ <;> rintro rfl <;> simp at htype

theorem parseFileName_exact_seven :
    parseFileName (tableFileName (2 ^ 64 - 1)) = some (2 ^ 64 - 1, .table) ∧
    ∃ digits, ((FileType.log = .descriptor ∧ ['0', '7', '.', 'l', 'o', 'g'] = kManifestPrefix ++ digits) ∨
        ∃ suffix, typeOf suffix = some .log ∧ ['0', '7', '.', 'l', 'o', 'g'] = digits ++ '.' :: suffix) ∧
      digits ≠ [] ∧ (∀ c ∈ digits, c.isDigit = true) ∧ Nat.ofDigitChars 10 digits 0 = 7 :=
  ⟨(parseFileName_exact.1 (2 ^ 64 - 1) (by norm_num)).2.1,
    parseFileName_exact.2 ['0', '7', '.', 'l', 'o', 'g'] 7 .log (by decide) (.inl rfl)⟩

end Ambar
