import Ambar.Table.Compress

/-!
# What the decoder accepts

`decompress_into` (`src/compress.cpp`, lines 225–330) reads bytes that anyone may have
written. A stream is a run of sequences and a last one of literals only; it stands for
the text its expansion gives, byte by byte. The decoder accepts exactly the streams whose
expansion is defined and fills the buffer.

`decompressAt` is the decoder once more, with positions into its two pieces of memory
and every access checked before it is made; it has no value where an access falls outside.

* `decompressLoop_eq_ok`: what is accepted, and what the buffer then holds.
* `decompressAt_eq`: no access falls outside, whatever the input.
* `decompressInto_exact`: both for a whole stream, with the bound on what its bytes
  deliver.
-/

namespace Ambar

open Lib (overwrite Agree Repeats copySteps copyEach Copy)

/-! ## Streams -/

/-- Bytes that continue a length: some of 255 and a last one below it. -/
inductive Extra : Bytes → ℕ → Prop
  | last {byte : UInt8} (h : byte ≠ 255) : Extra [byte] byte.toNat
  | more {bytes : Bytes} {n : ℕ} (h : Extra bytes n) : Extra (255 :: bytes) (255 + n)

/-- A nibble and the bytes that continue it give the length `n`. -/
def LengthBytes (nibble : ℕ) (bytes : Bytes) (n : ℕ) : Prop :=
  if nibble = 15 then ∃ m, Extra bytes m ∧ n = 15 + m else bytes = [] ∧ n = nibble

/-- A stream of sequences, each literals and a match, and last literals. -/
inductive Parses : Bytes → List (Copy UInt8) → Bytes → Prop
  | last {token : UInt8} {lengthBytes literals : Bytes}
      (hliterals : LengthBytes (token.toNat >>> 4) lengthBytes literals.length) :
      Parses (token :: (lengthBytes ++ literals)) [] literals
  | sequence {token lo hi : UInt8} {lengthBytes literals matchBytes rest last : Bytes} {coded : ℕ}
      {cs : List (Copy UInt8)}
      (hliterals : LengthBytes (token.toNat >>> 4) lengthBytes literals.length)
      (hmatch : LengthBytes (token.toNat &&& 0xf) matchBytes coded) (hrest : Parses rest cs last) :
      Parses (token :: (lengthBytes ++ (literals ++ lo :: hi :: (matchBytes ++ rest))))
        (⟨literals, lo.toNat + 256 * hi.toNat, coded + kMinMatch⟩ :: cs) last

/-- The byte `offset` places back, `n` times. -/
def repeatBack (offset : ℕ) : (n : ℕ) → Bytes → Bytes
  | 0, text => text
  | n + 1, text => repeatBack offset n (text ++ [text.getD (text.length - offset) 0])

/-- The text after one sequence, if its offset stays within what there is. -/
def expandCopy (text : Bytes) (c : Copy UInt8) : Option Bytes :=
  let text := text ++ c.literals
  if 1 ≤ c.offset ∧ c.offset ≤ text.length then some (repeatBack c.offset c.length text) else none

/-- The text a stream stands for, after `text`. -/
def expand : (text : Bytes) → List (Copy UInt8) → (last : Bytes) → Option Bytes
  | text, [], last => some (text ++ last)
  | text, c :: cs, last => (expandCopy text c).bind fun text => expand text cs last

/-! ## Lengths of a stream -/

theorem readExtra_eq_some {room : ℕ} {p p' : Bytes} {length n : ℕ} :
    readExtra room length p = some (n, p') ↔
      ∃ bytes m, p = bytes ++ p' ∧ Extra bytes m ∧ n = length + m ∧ n ≤ room := by
  induction p generalizing length with
  | nil =>
    refine ⟨fun h => by simp [readExtra] at h, ?_⟩
    rintro ⟨bytes, m, hp, hextra, -⟩
    cases hextra <;> simp at hp
  | cons byte p ih =>
    rw [readExtra]
    constructor
    · intro h
      split_ifs at h with hroom hlast
      · obtain ⟨rfl, rfl⟩ : length + byte.toNat = n ∧ p = p' := by simpa using h
        exact ⟨[byte], byte.toNat, rfl, .last hlast, rfl, by omega⟩
      · obtain rfl : byte = 255 := not_not.mp hlast
        obtain ⟨bytes, m, rfl, hextra, rfl, hle⟩ := ih.mp h
        refine ⟨255 :: bytes, 255 + m, rfl, .more hextra, ?_, hle⟩
        rw [show (255 : UInt8).toNat = 255 from rfl]
        omega
    · rintro ⟨bytes, m, hp, hextra, hn, hle⟩
      cases hextra with
      | last hlast =>
        obtain ⟨rfl, rfl⟩ : byte = _ ∧ p = p' := by simpa using hp
        rw [if_neg (by omega), if_pos hlast, hn]
      | more hextra =>
        obtain ⟨rfl, rfl⟩ : byte = 255 ∧ p = _ ++ p' := by simpa using hp
        rw [if_neg (by rw [show (255 : UInt8).toNat = 255 from rfl]; omega), if_neg (by decide)]
        refine ih.mpr ⟨_, _, rfl, hextra, ?_, hle⟩
        rw [show (255 : UInt8).toNat = 255 from rfl]
        omega

/-- A length is read, and there is room for it, exactly where its bytes stand. -/
theorem readLength_eq_some {room nibble least : ℕ} {p p' : Bytes} {n : ℕ} :
    (readLength room nibble least p = some (n, p') ∧ n ≤ room) ↔
      ∃ bytes m, p = bytes ++ p' ∧ LengthBytes nibble bytes m ∧ n = m + least ∧ n ≤ room := by
  unfold readLength LengthBytes
  by_cases h15 : nibble = 15
  · simp only [if_pos h15, readExtra_eq_some]
    constructor
    · rintro ⟨⟨bytes, m, hp, hextra, hn, hle⟩, -⟩
      exact ⟨bytes, 15 + m, hp, ⟨m, hextra, rfl⟩, by omega, hle⟩
    · rintro ⟨bytes, _, hp, ⟨m, hextra, rfl⟩, hn, hle⟩
      exact ⟨⟨bytes, m, hp, hextra, by omega, hle⟩, hle⟩
  · simp only [if_neg h15]
    constructor
    · rintro ⟨h, hle⟩
      obtain ⟨rfl, rfl⟩ : nibble + least = n ∧ p = p' := by simpa using h
      exact ⟨[], nibble, rfl, ⟨rfl, rfl⟩, rfl, hle⟩
    · rintro ⟨bytes, m, hp, ⟨rfl, rfl⟩, rfl, hle⟩
      exact ⟨by rw [hp, List.nil_append], hle⟩

theorem Extra.le {bytes : Bytes} {n : ℕ} (h : Extra bytes n) : n ≤ 255 * bytes.length := by
  induction h with
  | @last byte _ =>
    have := UInt8.toNat_lt byte
    simp only [List.length_singleton]
    omega
  | more _ ih =>
    rw [List.length_cons]
    omega

theorem LengthBytes.le {nibble n : ℕ} {bytes : Bytes} (h : LengthBytes nibble bytes n)
    (hnibble : nibble ≤ 15) : n ≤ 15 + 255 * bytes.length := by
  unfold LengthBytes at h
  split_ifs at h with h15
  · obtain ⟨m, hextra, rfl⟩ := h
    have := hextra.le
    omega
  · omega

theorem offset_eq (lo hi : UInt8) : lo.toNat ||| hi.toNat <<< 8 = lo.toNat + 256 * hi.toNat := by
  rw [or_shiftLeft_of_lt (UInt8.toNat_lt lo)]
  omega

/-! ## Expansions -/

theorem length_repeatBack (offset n : ℕ) (text : Bytes) :
    (repeatBack offset n text).length = text.length + n := by
  induction n generalizing text with
  | zero => rfl
  | succ n ih =>
    rw [repeatBack, ih, List.length_append, List.length_singleton]
    omega

theorem prefix_repeatBack (offset n : ℕ) (text : Bytes) : text <+: repeatBack offset n text := by
  induction n generalizing text with
  | zero => exact List.prefix_refl _
  | succ n ih => exact (List.prefix_append _ _).trans (ih _)

/-- What was written is what stood `offset` places before it. -/
theorem repeats_repeatBack {offset : ℕ} (hoff : 1 ≤ offset) :
    ∀ (n : ℕ) {text : Bytes}, offset ≤ text.length →
      Repeats (repeatBack offset n text) offset text.length n := by
  intro n
  induction n with
  | zero => exact fun _ i hi => absurd hi (Nat.not_lt_zero i)
  | succ n ih =>
    intro text hback i hi
    rw [repeatBack]
    generalize htext : text ++ [text.getD (text.length - offset) 0] = text'
    have hlen : text'.length = text.length + 1 := by
      rw [← htext, List.length_append, List.length_singleton]
    cases i with
    | zero =>
      -- the byte written first, and the one it was read from, are both still there
      obtain ⟨t, ht⟩ := prefix_repeatBack offset n text'
      rw [← ht, List.getElem?_append_left (by omega), List.getElem?_append_left (by omega), ← htext,
        Nat.add_zero, List.getElem?_append_right le_rfl, List.getElem?_append_left (by omega),
        Nat.sub_self, List.getElem?_cons_zero, List.getD_eq_getElem?_getD,
        List.getElem?_eq_getElem (by omega), Option.getD_some]
    | succ i =>
      have := @ih text' (by omega) i (by omega)
      rwa [hlen, show text.length + 1 + i = text.length + (i + 1) by omega] at this

theorem length_expandCopy {text text' : Bytes} {c : Copy UInt8} (h : expandCopy text c = some text') :
    text'.length = text.length + c.size := by
  unfold expandCopy at h
  simp only at h
  split_ifs at h
  obtain rfl := Option.some.inj h
  rw [length_repeatBack, List.length_append, Copy.size, Nat.add_assoc]

theorem length_expand {cs : List (Copy UInt8)} {last res : Bytes} :
    ∀ {text : Bytes}, expand text cs last = some res →
      res.length = text.length + (cs.map Copy.size).sum + last.length := by
  induction cs with
  | nil =>
    intro text h
    obtain rfl := Option.some.inj h
    simp
  | cons c cs ih =>
    intro text h
    obtain ⟨text', hcopy, hrest⟩ := Option.bind_eq_some_iff.mp h
    rw [ih hrest, length_expandCopy hcopy, List.map_cons, List.sum_cons]
    omega

/-! ## One sequence into the buffer -/

section

variable {text out : Bytes}

/-- The buffer begins with the text and has room for `n` more bytes. -/
def Begins (out text : Bytes) (n : ℕ) : Prop :=
  Agree out text text.length ∧ text.length + n ≤ out.length

theorem begins_take {produced n : ℕ} (h : (out.take produced).length + n ≤ out.length) :
    Begins out (out.take produced) n := by
  refine ⟨fun i hi => ?_, h⟩
  rw [List.length_take] at hi
  rw [List.getElem?_take, if_pos (by omega)]

/-- The buffer with a longer text over its front. -/
theorem Begins.over {more : Bytes} {n : ℕ} (h : Begins out text n) (hpre : text <+: more)
    (hlen : more.length = text.length + n) :
    Agree out (more ++ out.drop more.length) text.length ∧
      (more ++ out.drop more.length).length = out.length := by
  obtain ⟨hagree, hroom⟩ := h
  obtain ⟨t, ht⟩ := hpre
  constructor
  · intro i hi
    rw [hagree i hi, ← ht, List.append_assoc, List.getElem?_append_left hi]
  · rw [List.length_append, List.length_drop]
    omega

theorem begins_of_over {more : Bytes} {out' : Bytes} (hle : more.length ≤ out.length)
    (h : Agree out' (more ++ out.drop more.length) more.length ∧
      out'.length = (more ++ out.drop more.length).length) :
    Begins out' more 0 ∧ out'.length = out.length := by
  obtain ⟨hagree, hlen⟩ := h
  rw [List.length_append, List.length_drop] at hlen
  refine ⟨⟨fun i hi => ?_, by omega⟩, by omega⟩
  rw [hagree i hi, List.getElem?_append_left hi]

theorem copyLiterals_begins {literals rest : Bytes} (h : Begins out text literals.length) :
    Begins (copyLiterals (literals ++ rest) out text.length literals.length) (text ++ literals) 0 ∧
      (copyLiterals (literals ++ rest) out text.length literals.length).length = out.length := by
  have hroom := h.2
  have hlen : (text ++ literals).length = text.length + literals.length := List.length_append
  obtain ⟨hagree, hsame⟩ := h.over (List.prefix_append text literals) hlen
  have hspec := @copyLiterals_spec ((text ++ literals) ++ out.drop (text ++ literals).length) out
    text.length literals rest (by rw [List.append_assoc, List.drop_left]; exact List.prefix_append _ _)
    (by omega) hagree hsame.symm
  rw [← hlen] at hspec
  exact begins_of_over (by omega) hspec

theorem copyMatch_begins {offset n : ℕ} (hoff : 1 ≤ offset) (hback : offset ≤ text.length)
    (h : Begins out text n) :
    Begins (copyMatch out text.length offset n) (repeatBack offset n text) 0 ∧
      (copyMatch out text.length offset n).length = out.length := by
  have hroom := h.2
  have hlen := length_repeatBack offset n text
  obtain ⟨hagree, hsame⟩ := h.over (prefix_repeatBack offset n text) hlen
  have hrep : Repeats (repeatBack offset n text ++ out.drop (repeatBack offset n text).length)
      offset text.length n := by
    intro i hi
    rw [List.getElem?_append_left (by omega), List.getElem?_append_left (by omega)]
    exact repeats_repeatBack hoff n hback i hi
  have hspec := copyMatch_spec hoff hback (by omega) hrep hagree hsame.symm
  rw [← hlen] at hspec
  exact begins_of_over (by omega) hspec

end

/-! ## What is accepted -/

/-- The rest of a turn after the literals, of which `p` is what follows. -/
def afterLiterals (turns : ℕ) (token : UInt8) (p out : Bytes) (produced : ℕ) : Except Status Bytes :=
  match p with
  | [] =>
    if produced ≠ out.length then
      .error (.corruption "compressed block delivers less than it declares")
    else .ok out
  | [_] => .error (.corruption "match offset overruns the compressed input")
  | lo :: hi :: p =>
    let offset := lo.toNat ||| hi.toNat <<< 8
    if offset = 0 ∨ produced < offset then
      .error (.corruption "match reaches before the start of the block")
    else
      let matchRoom := out.length - produced
      match readLength matchRoom (token.toNat &&& 0xf) kMinMatch p with
      | none => .error (.corruption "match length overruns the block")
      | some (matchLength, p) =>
        if matchRoom < matchLength then .error (.corruption "match overruns the declared size")
        else decompressLoop turns p (copyMatch out produced offset matchLength) (produced + matchLength)

theorem decompressLoop_cons (turns : ℕ) (token : UInt8) (p out : Bytes) (produced : ℕ) :
    decompressLoop (turns + 1) (token :: p) out produced =
      match readLength (out.length - produced) (token.toNat >>> 4) 0 p with
      | none => .error (.corruption "literal length overruns the block")
      | some (literalCount, p) =>
        if out.length - produced < literalCount then
          .error (.corruption "literals overrun the declared size")
        else if p.length < literalCount then
          .error (.corruption "literals overrun the compressed input")
        else afterLiterals turns token (p.drop literalCount)
          (copyLiterals p out produced literalCount) (produced + literalCount) := by
  rw [decompressLoop]
  rfl

/-- A turn that is not refused for its literals has them in its input. -/
theorem decompressLoop_literals {turns : ℕ} {token : UInt8} {p out res : Bytes} {produced : ℕ} :
    decompressLoop (turns + 1) (token :: p) out produced = .ok res ↔
      ∃ lengthBytes literals rest, p = lengthBytes ++ (literals ++ rest) ∧
        LengthBytes (token.toNat >>> 4) lengthBytes literals.length ∧
        literals.length ≤ out.length - produced ∧
        afterLiterals turns token rest
          (copyLiterals (literals ++ rest) out produced literals.length)
          (produced + literals.length) = .ok res := by
  rw [decompressLoop_cons]
  constructor
  · intro h
    cases hread : readLength (out.length - produced) (token.toNat >>> 4) 0 p with
    | none => simp [hread] at h
    | some r =>
      obtain ⟨literalCount, p'⟩ := r
      rw [hread] at h
      simp only at h
      split_ifs at h with hroom hinput
      obtain ⟨bytes, m, hp, hbytes, hm, -⟩ := readLength_eq_some.mp ⟨hread, not_lt.mp hroom⟩
      have hcount : (p'.take literalCount).length = literalCount := by
        rw [List.length_take]
        omega
      refine ⟨bytes, p'.take literalCount, p'.drop literalCount, ?_, ?_, by omega, ?_⟩
      · rw [List.take_append_drop, hp]
      · rw [hcount, hm, Nat.add_zero]
        exact hbytes
      · rw [List.take_append_drop, hcount]
        exact h
  · rintro ⟨lengthBytes, literals, rest, hp, hbytes, hroom, h⟩
    obtain ⟨hread, -⟩ := (@readLength_eq_some (out.length - produced) _ 0 _ _ _).mpr
      ⟨lengthBytes, literals.length, hp, hbytes, rfl, hroom⟩
    rw [hread]
    simp only [Nat.add_zero]
    rw [if_neg (by omega), if_neg (by rw [List.length_append]; omega), List.drop_left]
    exact h

/-- What follows the literals: nothing, or a match and the next sequence. -/
theorem afterLiterals_eq_ok {turns : ℕ} {token : UInt8} {p out res : Bytes} {produced : ℕ} :
    afterLiterals turns token p out produced = .ok res ↔
      (p = [] ∧ produced = out.length ∧ res = out) ∨
      ∃ lo hi matchBytes rest coded, p = lo :: hi :: (matchBytes ++ rest) ∧
        LengthBytes (token.toNat &&& 0xf) matchBytes coded ∧
        1 ≤ lo.toNat + 256 * hi.toNat ∧ lo.toNat + 256 * hi.toNat ≤ produced ∧
        coded + kMinMatch ≤ out.length - produced ∧
        decompressLoop turns rest
          (copyMatch out produced (lo.toNat + 256 * hi.toNat) (coded + kMinMatch))
          (produced + (coded + kMinMatch)) = .ok res := by
  constructor
  · intro h
    match p with
    | [] =>
      unfold afterLiterals at h
      simp only at h
      split_ifs at h with hend
      exact .inl ⟨rfl, not_not.mp hend, by simpa using h.symm⟩
    | [_] => simp [afterLiterals] at h
    | lo :: hi :: p =>
      unfold afterLiterals at h
      simp only [offset_eq] at h
      split_ifs at h with hoff
      cases hread : readLength (out.length - produced) (token.toNat &&& 0xf) kMinMatch p with
      | none => simp [hread] at h
      | some r =>
        obtain ⟨matchLength, p'⟩ := r
        rw [hread] at h
        simp only at h
        split_ifs at h with hroom
        obtain ⟨bytes, coded, rfl, hbytes, rfl, -⟩ := readLength_eq_some.mp ⟨hread, not_lt.mp hroom⟩
        exact .inr ⟨lo, hi, bytes, p', coded, rfl, hbytes, by omega, by omega, by omega, h⟩
  · rintro (⟨rfl, hend, rfl⟩ | ⟨lo, hi, bytes, rest, coded, rfl, hbytes, hoff, hback, hroom, h⟩)
    · unfold afterLiterals
      simp only
      rw [if_neg (not_not.mpr hend)]
    · obtain ⟨hread, -⟩ := (@readLength_eq_some (out.length - produced) _ kMinMatch _ _ _).mpr
        ⟨bytes, coded, rfl, hbytes, rfl, hroom⟩
      unfold afterLiterals
      simp only [offset_eq]
      rw [if_neg (by omega), hread]
      simp only
      rw [if_neg (by omega)]
      exact h

/-- **What the decoder accepts**: with a text at the front of the buffer, the streams
    whose expansion after that text is defined and fills the buffer. -/
theorem decompressLoop_eq_ok {res : Bytes} :
    ∀ {turns : ℕ} {p out text : Bytes}, p.length < turns → Begins out text 0 →
      (decompressLoop turns p out text.length = .ok res ↔
        ∃ cs last, Parses p cs last ∧ expand text cs last = some res ∧ res.length = out.length) := by
  intro turns
  induction turns with
  | zero => exact fun h => absurd h (Nat.not_lt_zero _)
  | succ turns ih =>
    intro p out text hturns hbegins
    cases p with
    | nil =>
      refine ⟨fun h => by simp [decompressLoop] at h, ?_⟩
      rintro ⟨cs, last, hparse, -⟩
      cases hparse
    | cons token p =>
      have hroom := hbegins.2
      rw [decompressLoop_literals]
      constructor
      · rintro ⟨lengthBytes, literals, rest, rfl, hliterals, hle, h⟩
        obtain ⟨hbegins', hsame⟩ := @copyLiterals_begins text out literals rest
          ⟨hbegins.1, by omega⟩
        rw [← List.length_append] at h
        rcases afterLiterals_eq_ok.mp h with ⟨rfl, hend, rfl⟩ |
          ⟨lo, hi, matchBytes, rest, coded, rfl, hmatch, hoff, hback, hmroom, h⟩
        · refine ⟨[], literals, by rw [List.append_nil]; exact .last hliterals, ?_, hsame⟩
          have := hbegins'.1.eq hend.symm
          rw [this]
          rfl
        · obtain ⟨hbegins'', hsame'⟩ := copyMatch_begins (n := coded + kMinMatch) hoff hback
            ⟨hbegins'.1, by have := hbegins'.2; omega⟩
          rw [← length_repeatBack (lo.toNat + 256 * hi.toNat)] at h
          simp only [List.length_cons, List.length_append] at hturns
          obtain ⟨cs, last, hparse, hexpand, hlen⟩ := (ih (by omega) hbegins'').mp h
          refine ⟨_, last, .sequence hliterals hmatch hparse, ?_, by omega⟩
          rw [expand, expandCopy, if_pos ⟨hoff, hback⟩]
          exact hexpand
      · rintro ⟨cs, last, hparse, hexpand, hlen⟩
        have htotal := length_expand hexpand
        cases hparse with
        | @last _ lengthBytes _ hliterals =>
          obtain rfl := Option.some.inj hexpand
          simp only [List.map_nil, List.sum_nil, Nat.add_zero] at htotal
          obtain ⟨hbegins', hsame⟩ := @copyLiterals_begins text out last [] ⟨hbegins.1, by omega⟩
          refine ⟨lengthBytes, last, [], by rw [List.append_nil], hliterals, by omega, ?_⟩
          rw [← List.length_append]
          exact afterLiterals_eq_ok.mpr (.inl ⟨rfl, hlen.trans hsame.symm,
            (hbegins'.1.eq (hsame.trans hlen.symm)).symm⟩)
        | @sequence _ lo hi lengthBytes literals matchBytes rest _ coded cs hliterals hmatch hrest =>
          rw [List.map_cons, List.sum_cons, Copy.size] at htotal
          simp only at htotal
          obtain ⟨hbegins', hsame⟩ := @copyLiterals_begins text out literals
            (lo :: hi :: (matchBytes ++ rest)) ⟨hbegins.1, by omega⟩
          obtain ⟨text', hcopy, hexpand'⟩ := Option.bind_eq_some_iff.mp hexpand
          unfold expandCopy at hcopy
          simp only at hcopy
          split_ifs at hcopy with hoff
          obtain rfl := Option.some.inj hcopy
          have hlen' : (text ++ literals).length = text.length + literals.length := List.length_append
          obtain ⟨hbegins'', hsame'⟩ := copyMatch_begins (n := coded + kMinMatch) hoff.1 hoff.2
            ⟨hbegins'.1, by omega⟩
          refine ⟨lengthBytes, literals, _, rfl, hliterals, by omega, ?_⟩
          rw [← hlen']
          refine afterLiterals_eq_ok.mpr (.inr ⟨lo, hi, matchBytes, rest, coded, rfl, hmatch, hoff.1,
            hoff.2, by omega, ?_⟩)
          rw [← length_repeatBack (lo.toNat + 256 * hi.toNat)]
          simp only [List.length_cons, List.length_append] at hturns
          exact (ih (by omega) hbegins'').mpr ⟨cs, last, hrest, hexpand', by omega⟩

/-! ## What bytes can deliver -/

/-- No byte of a stream is worth more than 255 bytes of text. -/
theorem Parses.size_le {p last : Bytes} {cs : List (Copy UInt8)} (h : Parses p cs last) :
    (cs.map Copy.size).sum + last.length ≤ 255 * p.length := by
  induction h with
  | last =>
    simp only [List.map_nil, List.sum_nil, List.length_cons, List.length_append]
    omega
  | @sequence token _ _ _ _ _ _ _ _ _ _ hmatch _ ih =>
    have hnibble : token.toNat &&& 0xf ≤ 15 := Nat.and_le_right
    have hcoded := hmatch.le hnibble
    simp only [List.map_cons, List.sum_cons, List.length_cons, List.length_append, Copy.size,
      kMinMatch] at ih ⊢
    omega

/-! ## The decoder's accesses -/

/-- `n` bytes read from `at_` on, where the memory has them all. -/
def load (memory : Bytes) (at_ n : ℕ) : Option Bytes :=
  if at_ + n ≤ memory.length then some ((memory.drop at_).take n) else none

/-- Bytes written from `at_` on, where the memory has room for them all. -/
def store (memory : Bytes) (at_ : ℕ) (bytes : Bytes) : Option Bytes :=
  if at_ + bytes.length ≤ memory.length then some (overwrite memory at_ bytes) else none

/-- `wild_copy` (lines 73–80): `read` gives the bytes of a step from the buffer as it is
    then and the distance copied so far. -/
def wildCopy (read : Bytes → ℕ → Option Bytes) (start n : ℕ) : (turns done : ℕ) → Bytes → Option Bytes
  | 0, _, out => some out
  | turns + 1, done, out =>
    (read out done).bind fun bytes => (store out (start + done) bytes).bind fun out =>
      if start + (done + kWildCopyStep) < start + n then wildCopy read start n turns (done + kWildCopyStep) out
      else some out

/-- The loop of line 326: one byte read and one written a turn. -/
def copyBytes (start offset : ℕ) : (n : ℕ) → Bytes → Option Bytes
  | 0, out => some out
  | n + 1, out =>
    (copyBytes start offset n out).bind fun out =>
      (load out (start + n - offset) 1).bind fun byte => store out (start + n) byte

/-- `read_extra` (lines 240–248): the length and the position after it. -/
def readExtraAt (input : Bytes) (room : ℕ) : (turns length p : ℕ) → Option (Option (ℕ × ℕ))
  | 0, _, _ => some none
  | turns + 1, length, p =>
    if input.length ≤ p then some none
    else (input[p]?).bind fun byte =>
      let length := length + byte.toNat
      if room < length then some none
      else if byte ≠ 255 then some (some (length, p + 1))
      else readExtraAt input room turns length (p + 1)

/-- A length, continued if its nibble is 15 (lines 257–261, 302–306). -/
def readLengthAt (input : Bytes) (room nibble least p : ℕ) : Option (Option (ℕ × ℕ)) :=
  if nibble = 15 then readExtraAt input room (input.length + 1) (nibble + least) p
  else some (some (nibble + least, p))

/-- The literals into the buffer (lines 271–276). -/
def copyLiteralsAt (input : Bytes) (p : ℕ) (out : Bytes) (produced literalCount : ℕ) : Option Bytes :=
  if literalCount + kWildCopyStep ≤ input.length - p ∧
      literalCount + kWildCopyStep ≤ out.length - produced then
    wildCopy (fun _ done => load input (p + done) kWildCopyStep) produced literalCount
      (literalCount + 1) 0 out
  else (load input p literalCount).bind (store out produced)

/-- The match into the buffer (lines 319–327). -/
def copyMatchAt (out : Bytes) (produced offset matchLength : ℕ) : Option Bytes :=
  if kWildCopyStep ≤ offset ∧ matchLength + kWildCopyStep ≤ out.length - produced then
    wildCopy (fun out done => load out (produced - offset + done) kWildCopyStep) produced matchLength
      (matchLength + 1) 0 out
  else if matchLength ≤ offset then
    (load out (produced - offset) matchLength).bind (store out produced)
  else copyBytes produced offset matchLength out

/-- A turn after its literals (lines 280–328); `next` is the rest of the loop. -/
def afterLiteralsAt (next : ℕ → Bytes → ℕ → Option (Except Status Bytes)) (input : Bytes)
    (token : UInt8) (p : ℕ) (out : Bytes) (produced : ℕ) : Option (Except Status Bytes) :=
  if p = input.length then
    if produced ≠ out.length then
      some (.error (.corruption "compressed block delivers less than it declares"))
    else some (.ok out)
  else if input.length - p < 2 then
    some (.error (.corruption "match offset overruns the compressed input"))
  else
    (input[p]?).bind fun lo => (input[p + 1]?).bind fun hi =>
      let offset := lo.toNat ||| hi.toNat <<< 8
      if offset = 0 ∨ produced < offset then
        some (.error (.corruption "match reaches before the start of the block"))
      else
        let matchRoom := out.length - produced
        (readLengthAt input matchRoom (token.toNat &&& 0xf) kMinMatch (p + 2)).bind fun
          | none => some (.error (.corruption "match length overruns the block"))
          | some (matchLength, p) =>
            if matchRoom < matchLength then
              some (.error (.corruption "match overruns the declared size"))
            else (copyMatchAt out produced offset matchLength).bind fun out =>
              next p out (produced + matchLength)

/-- `decompress_into` with its input read at positions and every access checked; no value
    where one falls outside the input or the buffer. -/
def decompressAt (input : Bytes) :
    (turns p : ℕ) → (out : Bytes) → (produced : ℕ) → Option (Except Status Bytes)
  | 0, _, _, _ => some (.error (.corruption "compressed block ends before its last token"))
  | turns + 1, p, out, produced =>
    if input.length ≤ p then
      some (.error (.corruption "compressed block ends before its last token"))
    else
      (input[p]?).bind fun token =>
        let room := out.length - produced
        (readLengthAt input room (token.toNat >>> 4) 0 (p + 1)).bind fun
          | none => some (.error (.corruption "literal length overruns the block"))
          | some (literalCount, p) =>
            if room < literalCount then
              some (.error (.corruption "literals overrun the declared size"))
            else if input.length - p < literalCount then
              some (.error (.corruption "literals overrun the compressed input"))
            else (copyLiteralsAt input p out produced literalCount).bind fun out =>
              afterLiteralsAt (decompressAt input turns) input token (p + literalCount) out
                (produced + literalCount)

theorem load_eq {memory : Bytes} {at_ n : ℕ} (h : at_ + n ≤ memory.length) :
    load memory at_ n = some ((memory.drop at_).take n) :=
  if_pos h

theorem store_eq {memory bytes : Bytes} {at_ : ℕ} (h : at_ + bytes.length ≤ memory.length) :
    store memory at_ bytes = some (overwrite memory at_ bytes) :=
  if_pos h

/-- A copy in steps stays inside while each step reads inside and there is room for one
    more than it copies. -/
theorem wildCopy_eq {read' : Bytes → ℕ → Option Bytes} {read : Bytes → ℕ → Bytes} {start n : ℕ} :
    ∀ {turns done : ℕ} {out : Bytes}, start + n + kWildCopyStep ≤ out.length → done ≤ n →
      (∀ buf done, buf.length = out.length → done ≤ n →
        read' buf done = some (read buf done) ∧ (read buf done).length = kWildCopyStep) →
      wildCopy read' start n turns done out = some (copySteps kWildCopyStep read start n turns done out) := by
  intro turns
  induction turns with
  | zero => exact fun _ _ _ => rfl
  | succ turns ih =>
    intro done out hroom hdone hread
    obtain ⟨hsome, hlen⟩ := hread out done rfl hdone
    have hin : start + done + (read out done).length ≤ out.length := by omega
    rw [wildCopy, copySteps, hsome, Option.bind_some, store_eq hin, Option.bind_some]
    have hsame := Lib.length_overwrite hin
    split_ifs with hmore
    · refine ih (by omega) (by omega) fun buf done hbuf => hread buf done (by omega)
    · rfl

theorem overwrite_singleton {out : Bytes} {i : ℕ} {byte : UInt8} (h : i < out.length) :
    overwrite out i [byte] = out.set i byte := by
  rw [overwrite, List.set_eq_take_append_cons_drop, if_pos h, List.append_assoc, List.singleton_append,
    List.length_singleton]

theorem length_copyEach (start offset n : ℕ) (out : Bytes) :
    (copyEach 0 start offset n out).length = out.length := by
  induction n with
  | zero => rfl
  | succ n ih => rw [copyEach, List.length_set, ih]

theorem copyBytes_eq {start offset : ℕ} (hoff : 1 ≤ offset) (hback : offset ≤ start) {out : Bytes} :
    ∀ {n : ℕ}, start + n ≤ out.length → copyBytes start offset n out = some (copyEach 0 start offset n out) := by
  intro n
  induction n with
  | zero => exact fun _ => rfl
  | succ n ih =>
    intro hroom
    have hlen := length_copyEach start offset n out
    have hfrom : start + n - offset < (copyEach 0 start offset n out).length := by omega
    have hbyte : ((copyEach 0 start offset n out).drop (start + n - offset)).take 1 =
        [(copyEach 0 start offset n out).getD (start + n - offset) 0] := by
      rw [List.take_one_drop_eq_of_lt_length hfrom, List.getD_eq_getElem?_getD,
        List.getElem?_eq_getElem hfrom, Option.getD_some]
      rfl
    rw [copyBytes, ih (by omega), Option.bind_some, load_eq (by omega), Option.bind_some, hbyte,
      store_eq (by rw [List.length_singleton]; omega), copyEach, overwrite_singleton (by omega)]

theorem copyLiteralsAt_eq {input out : Bytes} {p produced n : ℕ} (hp : p + n ≤ input.length)
    (hroom : produced + n ≤ out.length) :
    copyLiteralsAt input p out produced n = some (copyLiterals (input.drop p) out produced n) := by
  unfold copyLiteralsAt copyLiterals
  rw [List.length_drop]
  split_ifs with hwild
  · refine wildCopy_eq (by omega) (Nat.zero_le _) fun buf done _ hdone => ⟨?_, ?_⟩
    · rw [load_eq (by omega), List.drop_drop]
    · rw [List.length_take, List.length_drop, List.length_drop]
      omega
  · rw [load_eq hp, Option.bind_some, store_eq]
    rw [List.length_take, List.length_drop]
    omega

theorem copyMatchAt_eq {out : Bytes} {produced offset n : ℕ} (hoff : 1 ≤ offset)
    (hback : offset ≤ produced) (hroom : produced + n ≤ out.length) :
    copyMatchAt out produced offset n = some (copyMatch out produced offset n) := by
  unfold copyMatchAt copyMatch
  split_ifs with hwild hplain
  · refine wildCopy_eq (by omega) (Nat.zero_le _) fun buf done hbuf hdone => ⟨?_, ?_⟩
    · rw [load_eq (by omega)]
    · rw [List.length_take, List.length_drop]
      omega
  · rw [load_eq (by omega), Option.bind_some, store_eq]
    rw [List.length_take, List.length_drop]
    omega
  · exact copyBytes_eq hoff hback hroom

theorem length_copyLiterals {p out : Bytes} {produced n : ℕ} (hp : n ≤ p.length)
    (hroom : produced + n ≤ out.length) : (copyLiterals p out produced n).length = out.length := by
  have hcount : (p.take n).length = n := by
    rw [List.length_take]
    omega
  have hproduced : (out.take produced).length = produced := by
    rw [List.length_take]
    omega
  have := (@copyLiterals_begins (out.take produced) out (p.take n) (p.drop n)
    (begins_take (by omega))).2
  rwa [List.take_append_drop, hcount, hproduced] at this

theorem length_copyMatch {out : Bytes} {produced offset n : ℕ} (hoff : 1 ≤ offset)
    (hback : offset ≤ produced) (hroom : produced + n ≤ out.length) :
    (copyMatch out produced offset n).length = out.length := by
  have hproduced : (out.take produced).length = produced := by
    rw [List.length_take]
    omega
  have := (@copyMatch_begins (out.take produced) out offset n hoff (by omega)
    (begins_take (by omega))).2
  rwa [hproduced] at this

/-- Lengths are read from inside the input. -/
theorem readExtraAt_eq {input : Bytes} {room : ℕ} :
    ∀ {turns length p : ℕ}, input.length < turns + p → p ≤ input.length →
      ∃ r, readExtraAt input room turns length p = some r ∧
        readExtra room length (input.drop p) = r.map (fun x => (x.1, input.drop x.2)) ∧
        ∀ x ∈ r, x.2 ≤ input.length := by
  intro turns
  induction turns with
  | zero => intro length p h1 h2; omega
  | succ turns ih =>
    intro length p hturns hp
    rw [readExtraAt]
    by_cases hend : input.length ≤ p
    · refine ⟨none, if_pos hend, ?_, fun x hx => nomatch hx⟩
      rw [List.drop_of_length_le hend, readExtra]
      rfl
    · rw [if_neg hend, List.getElem?_eq_getElem (by omega), Option.bind_some,
        List.drop_eq_getElem_cons (by omega), readExtra]
      simp only
      split_ifs with hroom hlast
      · exact ⟨none, rfl, rfl, fun x hx => nomatch hx⟩
      · refine ⟨some (_, p + 1), rfl, rfl, fun x hx => ?_⟩
        obtain rfl := Option.some.inj hx
        show p + 1 ≤ _
        omega
      · exact ih (by omega) (by omega)

theorem readLengthAt_eq {input : Bytes} {room nibble least p : ℕ} (hp : p ≤ input.length) :
    ∃ r, readLengthAt input room nibble least p = some r ∧
      readLength room nibble least (input.drop p) = r.map (fun x => (x.1, input.drop x.2)) ∧
      ∀ x ∈ r, x.2 ≤ input.length := by
  unfold readLengthAt readLength
  split_ifs
  · exact readExtraAt_eq (by omega) hp
  · refine ⟨some (_, p), rfl, rfl, fun x hx => ?_⟩
    obtain rfl := Option.some.inj hx
    exact hp

/-- The rest of a turn makes no access outside, if the turns after it make none. -/
theorem afterLiteralsAt_eq {input out : Bytes} {turns p produced : ℕ} {token : UInt8}
    (hnext : ∀ p out produced, p ≤ input.length → produced ≤ out.length →
      decompressAt input turns p out produced = some (decompressLoop turns (input.drop p) out produced))
    (hp : p ≤ input.length) (hproduced : produced ≤ out.length) :
    afterLiteralsAt (decompressAt input turns) input token p out produced =
      some (afterLiterals turns token (input.drop p) out produced) := by
  unfold afterLiteralsAt
  by_cases hend : p = input.length
  · rw [if_pos hend, List.drop_of_length_le hend.ge, afterLiterals]
    split_ifs <;> rfl
  rw [if_neg hend, List.drop_eq_getElem_cons (by omega)]
  by_cases htwo : input.length - p < 2
  · rw [if_pos htwo, List.drop_of_length_le (by omega)]
    rfl
  rw [if_neg htwo, List.drop_eq_getElem_cons (by omega : p + 1 < input.length), afterLiterals,
    List.getElem?_eq_getElem (by omega), List.getElem?_eq_getElem (by omega), Option.bind_some,
    Option.bind_some]
  simp only
  split_ifs with hoff
  · rfl
  obtain ⟨r, hr, hread, hpos⟩ := @readLengthAt_eq input (out.length - produced) (token.toNat &&& 0xf)
    kMinMatch (p + 2) (by omega)
  rw [hr, Option.bind_some, hread]
  cases r with
  | none => rfl
  | some r =>
    obtain ⟨matchLength, p'⟩ := r
    simp only [Option.map_some]
    split_ifs with hroom
    · rfl
    · rw [copyMatchAt_eq (by omega) (by omega) (by omega), Option.bind_some]
      refine hnext _ _ _ (hpos _ rfl) ?_
      rw [length_copyMatch (by omega) (by omega) (by omega)]
      omega

/-- **No access falls outside**: the checked decoder has a value on every input, and it is
    the decoder's. -/
theorem decompressAt_eq {input : Bytes} :
    ∀ (turns p : ℕ) (out : Bytes) (produced : ℕ), p ≤ input.length → produced ≤ out.length →
      decompressAt input turns p out produced =
        some (decompressLoop turns (input.drop p) out produced) := by
  intro turns
  induction turns with
  | zero => exact fun _ _ _ _ _ => rfl
  | succ turns ih =>
    intro p out produced hp hproduced
    rw [decompressAt]
    by_cases hend : input.length ≤ p
    · rw [if_pos hend, List.drop_of_length_le hend, decompressLoop]
    rw [if_neg hend, List.getElem?_eq_getElem (by omega), Option.bind_some,
      List.drop_eq_getElem_cons (by omega), decompressLoop_cons]
    simp only
    obtain ⟨r, hr, hread, hpos⟩ := @readLengthAt_eq input (out.length - produced)
      ((input.get ⟨p, by omega⟩).toNat >>> 4) 0 (p + 1) (by omega)
    rw [List.get_eq_getElem] at hr hread
    simp only at hr hread
    rw [hr, Option.bind_some, hread]
    cases r with
    | none => rfl
    | some r =>
      obtain ⟨literalCount, p'⟩ := r
      have hp' : p' ≤ input.length := hpos _ rfl
      simp only [Option.map_some, List.length_drop]
      split_ifs with hroom hinput
      · rfl
      · rfl
      · rw [copyLiteralsAt_eq (by omega) (by omega), Option.bind_some, List.drop_drop]
        refine afterLiteralsAt_eq ih (by omega) ?_
        rw [length_copyLiterals (by rw [List.length_drop]; omega) (by omega)]
        omega

/-! ## A whole stream -/

/-- `decompress_into` (lines 225–330) into a buffer of `total` bytes, whatever they are. -/
def decompressIntoBuffer (input buf : Bytes) : Except Status Bytes :=
  decompressLoop (input.length + 1) input buf 0

/-- The same with every access checked. -/
def decompressIntoChecked (input buf : Bytes) : Option (Except Status Bytes) :=
  decompressAt input (input.length + 1) 0 buf 0

/-- **The decoder, exactly**: it accepts the streams whose expansion is defined and fills
    the buffer, which then holds it; whatever the input, no read falls outside the input
    and no read or write outside the buffer; and an accepted stream delivers no more than
    255 bytes for each of its own, so the length before it is never refused. -/
theorem decompressInto_exact (body buf : Bytes) :
    (∀ out, decompressIntoBuffer body buf = .ok out ↔
      ∃ cs last, Parses body cs last ∧ expand [] cs last = some out ∧ out.length = buf.length) ∧
    decompressIntoChecked body buf = some (decompressIntoBuffer body buf) ∧
    (∀ out, decompressIntoBuffer body buf = .ok out →
      buf.length ≤ 255 * body.length ∧
        ∀ input, getVarint32 input = some (buf.length, body) →
          compressedLength input = .ok (buf.length, body)) := by
  have haccept : ∀ out, decompressIntoBuffer body buf = .ok out ↔
      ∃ cs last, Parses body cs last ∧ expand [] cs last = some out ∧ out.length = buf.length :=
    fun out => @decompressLoop_eq_ok out _ _ _ [] (Nat.lt_succ_self _)
      ⟨fun i hi => absurd hi (Nat.not_lt_zero i), Nat.zero_le _⟩
  refine ⟨haccept, decompressAt_eq _ 0 buf 0 (Nat.zero_le _) (Nat.zero_le _), fun out hout => ?_⟩
  obtain ⟨cs, last, hparse, hexpand, hlen⟩ := (haccept out).mp hout
  have hbound : buf.length ≤ 255 * body.length := by
    have hsize := hparse.size_le
    have hout := length_expand hexpand
    rw [List.length_nil] at hout
    omega
  refine ⟨hbound, fun input hinput => ?_⟩
  unfold compressedLength
  rw [hinput]
  simp only
  rw [if_neg (by omega)]

end Ambar
