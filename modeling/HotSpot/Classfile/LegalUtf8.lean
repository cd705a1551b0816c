import HotSpot.Utilities.Utf8
import Mathlib

/-! # Strings of the constant pool

`verify_legal_utf8` of `classFileParser.cpp` accepts the strings that the decoders of
`utf8.cpp` are made for. The rest of the buffer stands for the index into it.
-/

namespace HotSpot.ClassFileParser

variable (parser : ClassFileParser)

/-- The loop over four bytes at a time, which stops in front of a zero or a byte that is not
ASCII. -/
def skipAsciiWords : Nat → Bytes → Bytes
  | 0, buffer => buffer
  | count + 1, buffer =>
    let b0 := buffer.getD 0 0
    let b1 := buffer.getD 1 0
    let b2 := buffer.getD 2 0
    let b3 := buffer.getD 3 0
    -- `v | v - 1` is at least 128 for a zero and for a byte that is not ASCII
    let res := b0 ||| (b0 - 1) ||| b1 ||| (b1 - 1) ||| b2 ||| (b2 - 1) ||| b3 ||| (b3 - 1)
    if 128 ≤ res.toNat then buffer else skipAsciiWords count (buffer.drop 4)

def illegalUtf8 : Except FormatError Unit := .error (.illegalUtf8 parser.className)

/-- The loop over the bytes that are left. -/
def verifyUtf8Loop (buffer : Bytes) : Except FormatError Unit :=
  if buffer.length = 0 then .ok ()
  else
    let byte i := (buffer.getD i 0).toNat
    if byte 0 = 0 then parser.illegalUtf8 -- no embedded zeros
    else if byte 0 < 128 then verifyUtf8Loop (buffer.drop 1)
    else if 5 < buffer.length ∧ UTF8.isSupplementaryCharacter buffer then
      verifyUtf8Loop (buffer.drop 6)
    else
      match byte 0 >>> 4 with
      | 0x8 | 0x9 | 0xA | 0xB | 0xF => parser.illegalUtf8
      | 0xC | 0xD =>
        let c := ((byte 0 &&& 0x1F) <<< 6) + (byte 1 &&& 0x3F)
        if (1 < buffer.length ∧ byte 1 &&& 0xC0 = 0x80) ∧
            (parser.majorVersion ≤ 47 ∨ c = 0 ∨ 0x80 ≤ c) then
          verifyUtf8Loop (buffer.drop 2)
        else parser.illegalUtf8
      | 0xE =>
        let c := ((byte 0 &&& 0xF) <<< 12) + ((byte 1 &&& 0x3F) <<< 6) + (byte 2 &&& 0x3F)
        if (2 < buffer.length ∧ byte 1 &&& 0xC0 = 0x80 ∧ byte 2 &&& 0xC0 = 0x80) ∧
            (parser.majorVersion ≤ 47 ∨ 0x800 ≤ c) then
          verifyUtf8Loop (buffer.drop 3)
        else parser.illegalUtf8
      | _ => verifyUtf8Loop (buffer.drop 1)
termination_by buffer.length
decreasing_by all_goals simp_wf; omega

def verifyLegalUtf8 (buffer : Bytes) : Except FormatError Unit :=
  parser.verifyUtf8Loop (skipAsciiWords (buffer.length >>> 2) buffer)

open UTF8

variable {parser} {buffer form rest : Bytes} {c : Nat} {cs : List Nat}

/-! ## The loop over the bytes -/

@[simp] theorem verifyUtf8Loop_nil : parser.verifyUtf8Loop [] = .ok () := by
  rw [verifyUtf8Loop, List.length_nil, if_pos rfl]

theorem verifyUtf8Loop_ascii {b : UInt8} (hpos : 0 < b.toNat) (hascii : b.toNat < 128) :
    parser.verifyUtf8Loop (b :: rest) = parser.verifyUtf8Loop rest := by
  rw [verifyUtf8Loop, if_neg (by simp)]
  simp only [List.getD_cons_zero]
  rw [if_neg (by omega), if_pos hascii, List.drop_one, List.tail_cons]

/-- The six bytes are two forms of three bytes, a high and a low surrogate. -/
theorem isSupplementaryCharacter_iff (hlen : 5 < buffer.length) :
    isSupplementaryCharacter buffer = true ↔
      ∃ b2 b3 b5 b6 rest, buffer = 0xED :: b2 :: b3 :: 0xED :: b5 :: b6 :: rest ∧
        b2.toNat / 16 = 10 ∧ b3.toNat / 64 = 2 ∧ b5.toNat / 16 = 11 ∧ b6.toNat / 64 = 2 := by
  have hhigh : ∀ b : UInt8, b.toNat &&& 0xF0 = 0xA0 ↔ b.toNat / 16 = 10 := by
    intro b
    have hall : ∀ n < 256, n &&& 0xF0 = 0xA0 ↔ n / 16 = 10 := by decide +kernel
    exact hall _ b.toNat_lt
  have hlow : ∀ b : UInt8, b.toNat &&& 0xF0 = 0xB0 ↔ b.toNat / 16 = 11 := by
    intro b
    have hall : ∀ n < 256, n &&& 0xF0 = 0xB0 ↔ n / 16 = 11 := by decide +kernel
    exact hall _ b.toNat_lt
  have hed : ∀ b : UInt8, b.toNat = 0xED ↔ b = 0xED := by
    intro b
    exact ⟨fun h => UInt8.toNat_inj.mp h, fun h => h ▸ rfl⟩
  match buffer, hlen with
  | b1 :: b2 :: b3 :: b4 :: b5 :: b6 :: rest, _ =>
    simp only [isSupplementaryCharacter, List.getD_cons_zero, List.getD_cons_succ, and_mask_eq,
      hhigh, hlow, hed, decide_eq_true_eq, List.cons.injEq]
    constructor
    · rintro ⟨rfl, h2, h3, rfl, h5, h6⟩
      exact ⟨b2, b3, b5, b6, rest, ⟨rfl, rfl, rfl, rfl, rfl, rfl, rfl⟩, h2, h3, h5, h6⟩
    · rintro ⟨_, _, _, _, _, ⟨rfl, rfl, rfl, rfl, rfl, rfl, rfl⟩, h2, h3, h5, h6⟩
      exact ⟨rfl, h2, h3, rfl, h5, h6⟩

/-- A form of two bytes is the shortest one for zero and from `0x80` on. -/
theorem utf8Size_two {c : Nat} (hc : c < 0x800) :
    2 = UNICODE.utf8Size c ↔ c = 0 ∨ 0x80 ≤ c := by
  rw [UNICODE.utf8Size]
  split_ifs <;> omega

theorem utf8Size_three {c : Nat} : 3 = UNICODE.utf8Size c ↔ 0x800 ≤ c := by
  rw [UNICODE.utf8Size]
  split_ifs <;> omega

/-- A form that is not the first half of a surrogate pair. -/
theorem verifyUtf8Loop_plain (hform : Form form c)
    (hshort : 47 < parser.majorVersion → form.length = UNICODE.utf8Size c)
    (hpair : ¬(5 < (form ++ rest).length ∧ isSupplementaryCharacter (form ++ rest) = true)) :
    parser.verifyUtf8Loop (form ++ rest) = parser.verifyUtf8Loop rest := by
  cases hform with
  | one hpos hascii => exact verifyUtf8Loop_ascii hpos hascii
  | @two b b2 hlead hnext =>
    have hversion : parser.majorVersion ≤ 47 ∨ b.toNat % 32 * 64 + b2.toNat % 64 = 0 ∨
        0x80 ≤ b.toNat % 32 * 64 + b2.toNat % 64 := by
      rw [← utf8Size_two (by omega)]
      exact (Nat.lt_or_ge 47 parser.majorVersion).symm.imp_right hshort
    have hhigh : b.toNat >>> 4 = 0xC ∨ b.toNat >>> 4 = 0xD := by
      rw [Nat.shiftRight_eq_div_pow]
      omega
    rw [verifyUtf8Loop, if_neg (by simp)]
    simp only [if_neg hpair]
    simp only [List.cons_append, List.nil_append, List.getD_cons_zero,
      List.getD_cons_succ, and_mask_eq, hnext, and_low_five, and_low_six, Nat.shiftLeft_eq]
    rw [if_neg (by omega), if_neg (by omega)]
    rcases hhigh with hhigh | hhigh
    · simp only [hhigh]
      exact if_pos ⟨⟨by simp, trivial⟩, hversion⟩
    · simp only [hhigh]
      exact if_pos ⟨⟨by simp, trivial⟩, hversion⟩
  | @three b b2 b3 hlead hnext hlast =>
    have hversion : parser.majorVersion ≤ 47 ∨
        0x800 ≤ b.toNat % 16 * 2 ^ 12 + b2.toNat % 64 * 2 ^ 6 + b3.toNat % 64 := by
      refine (Nat.lt_or_ge 47 parser.majorVersion).symm.imp_right fun h => ?_
      have := utf8Size_three.mp (hshort h)
      omega
    have hhigh : b.toNat >>> 4 = 0xE := by
      rw [Nat.shiftRight_eq_div_pow]
      omega
    rw [verifyUtf8Loop, if_neg (by simp)]
    simp only [if_neg hpair]
    simp only [List.cons_append, List.nil_append, List.getD_cons_zero,
      List.getD_cons_succ, and_mask_eq, hnext, hlast, and_low_four, and_low_six,
      Nat.shiftLeft_eq]
    rw [if_neg (by omega), if_neg (by omega)]
    simp only [hhigh]
    exact if_pos ⟨⟨by simp, trivial, trivial⟩, hversion⟩

/-- One form, also where the shortcut takes a surrogate pair at once. -/
theorem verifyUtf8Loop_form (hform : Form form c)
    (hshort : 47 < parser.majorVersion → form.length = UNICODE.utf8Size c) :
    parser.verifyUtf8Loop (form ++ rest) = parser.verifyUtf8Loop rest := by
  by_cases hpair : 5 < (form ++ rest).length ∧ isSupplementaryCharacter (form ++ rest) = true
  · obtain ⟨b2, b3, b5, b6, more, heq, h2, h3, h5, h6⟩ :=
      (isSupplementaryCharacter_iff hpair.1).mp hpair.2
    have hskip : parser.verifyUtf8Loop (form ++ rest) = parser.verifyUtf8Loop more := by
      rw [verifyUtf8Loop, if_neg (by omega)]
      simp only [if_pos hpair]
      rw [heq, if_neg (by simp), if_neg (by simp)]
      rfl
    -- the low surrogate is a form that starts no pair
    have hlow : Form [0xED, b5, b6] ((0xED % 16 * 64 + b5.toNat % 64) * 64 + b6.toNat % 64) :=
      .three rfl (by omega) h6
    have hmore : parser.verifyUtf8Loop ([0xED, b5, b6] ++ more) = parser.verifyUtf8Loop more := by
      refine verifyUtf8Loop_plain hlow (fun _ => utf8Size_three.mpr (by omega)) fun h => ?_
      obtain ⟨_, _, _, _, _, heq', h2', -⟩ := (isSupplementaryCharacter_iff h.1).mp h.2
      simp only [List.cons_append, List.nil_append, List.cons.injEq] at heq'
      rw [← heq'.2.1] at h2'
      omega
    rw [hskip, ← hmore]
    cases hform with
    | one hpos hascii =>
      simp only [List.cons_append, List.nil_append, List.cons.injEq] at heq
      rw [heq.1] at hascii
      exact absurd hascii (by decide)
    | two hlead hnext =>
      simp only [List.cons_append, List.nil_append, List.cons.injEq] at heq
      rw [heq.1] at hlead
      exact absurd hlead (by decide)
    | three hlead hnext hlast =>
      simp only [List.cons_append, List.nil_append, List.cons.injEq] at heq
      rw [heq.2.2.2]
      rfl
  · exact verifyUtf8Loop_plain hform hshort hpair

theorem exists_form_two {b : UInt8} {tail : Bytes}
    (hcheck : (1 < (b :: tail).length ∧ (tail.getD 0 0).toNat / 64 = 2) ∧
      (parser.majorVersion ≤ 47 ∨ b.toNat % 32 * 2 ^ 6 + (tail.getD 0 0).toNat % 64 = 0 ∨
        0x80 ≤ b.toNat % 32 * 2 ^ 6 + (tail.getD 0 0).toNat % 64))
    (hlead : b.toNat / 32 = 6) :
    ∃ form c rest, b :: tail = form ++ rest ∧ Form form c ∧
      (47 < parser.majorVersion → form.length = UNICODE.utf8Size c) := by
  obtain ⟨⟨hlen, hnext⟩, hversion⟩ := hcheck
  match tail, hlen with
  | b2 :: rest, _ =>
    simp only [List.getD_cons_zero] at hnext hversion
    refine ⟨[b, b2], _, rest, rfl, .two hlead hnext, fun h => (utf8Size_two (by omega)).mpr ?_⟩
    omega

/-- What the loop lets pass starts with a form. -/
theorem exists_form_of_verifyUtf8Loop (hok : parser.verifyUtf8Loop buffer = .ok ())
    (hne : buffer ≠ []) :
    ∃ form c rest, buffer = form ++ rest ∧ Form form c ∧
      (47 < parser.majorVersion → form.length = UNICODE.utf8Size c) := by
  obtain ⟨b, tail, rfl⟩ := List.exists_cons_of_ne_nil hne
  rw [verifyUtf8Loop, if_neg (by simp)] at hok
  simp only [List.getD_cons_zero, List.getD_cons_succ, and_mask_eq, and_low_four, and_low_five,
    and_low_six, Nat.shiftLeft_eq] at hok
  have hillegal : parser.illegalUtf8 ≠ .ok () := by simp [illegalUtf8]
  split at hok
  next => exact absurd hok hillegal
  next hzero =>
  split at hok
  next hascii =>
    refine ⟨[b], _, tail, rfl, .one (by omega) hascii, fun _ => ?_⟩
    rw [UNICODE.utf8Size, if_pos (by omega), List.length_singleton]
  next hascii =>
  split at hok
  next hpair =>
    obtain ⟨b2, b3, b5, b6, more, heq, h2, h3, h5, h6⟩ :=
      (isSupplementaryCharacter_iff hpair.1).mp hpair.2
    refine ⟨[0xED, b2, b3], _, 0xED :: b5 :: b6 :: more, heq, .three rfl (by omega) h3,
      fun _ => utf8Size_three.mpr ?_⟩
    change 0x800 ≤ (13 * 64 + b2.toNat % 64) * 64 + b3.toNat % 64
    omega
  next hpair =>
  generalize hhigh : b.toNat >>> 4 = high at hok
  rw [Nat.shiftRight_eq_div_pow] at hhigh
  split at hok
  case h_6 | h_7 =>
    split at hok
    next hcheck => exact exists_form_two hcheck (by omega)
    next => exact absurd hok hillegal
  case h_8 =>
    split at hok
    next hcheck =>
      obtain ⟨⟨hlen, hnext, hlast⟩, hversion⟩ := hcheck
      rw [List.length_cons] at hlen
      obtain ⟨b2, tail, rfl⟩ := List.exists_cons_of_length_pos (show 0 < tail.length by omega)
      rw [List.length_cons] at hlen
      obtain ⟨b3, rest, rfl⟩ := List.exists_cons_of_length_pos (show 0 < tail.length by omega)
      simp only [List.getD_cons_zero, List.getD_cons_succ] at hnext hlast hversion
      refine ⟨[b, b2, b3], _, rest, rfl, .three (by omega) hnext hlast,
        fun h => utf8Size_three.mpr ?_⟩
      omega
    next => exact absurd hok hillegal
  case h_9 =>
    have hrange : high = 8 ∨ high = 9 ∨ high = 10 ∨ high = 11 ∨ high = 12 ∨ high = 13 ∨ high = 14 ∨
        high = 15 := by
      have := b.toNat_lt
      omega
    rcases hrange with h | h | h | h | h | h | h | h <;> contradiction
  all_goals exact absurd hok hillegal

theorem verifyUtf8Loop_iff :
    parser.verifyUtf8Loop buffer = .ok () ↔ ∃ cs, Encodes parser.majorVersion buffer cs := by
  constructor
  · intro hok
    induction hlen : buffer.length using Nat.strongRecOn generalizing buffer with
    | ind n ih =>
      by_cases hne : buffer = []
      · exact ⟨[], hne ▸ .nil⟩
      · obtain ⟨form, c, rest, rfl, hform, hshort⟩ := exists_form_of_verifyUtf8Loop hok hne
        rw [verifyUtf8Loop_form hform hshort] at hok
        have hpos : 0 < form.length := by cases hform <;> simp
        obtain ⟨cs, hrest⟩ := ih rest.length (by simp at hlen; omega) hok rfl
        exact ⟨c :: cs, .cons hform hshort hrest⟩
  · rintro ⟨cs, hencodes⟩
    induction hencodes with
    | nil => exact verifyUtf8Loop_nil
    | cons hform hshort hrest ih => rw [verifyUtf8Loop_form hform hshort, ih]

/-! ## The loop over words -/

theorem or_lt_iff {x y : UInt8} :
    (x ||| y).toNat < 128 ↔ x.toNat < 128 ∧ y.toNat < 128 := by
  rw [UInt8.toNat_or]
  refine ⟨fun h => ⟨Nat.lt_of_le_of_lt Nat.left_le_or h, Nat.lt_of_le_of_lt Nat.right_le_or h⟩,
    fun h => ?_⟩
  exact @Nat.or_lt_two_pow _ _ 7 h.1 h.2

theorem pos_of_pred_lt {b : UInt8} (h : (b - 1).toNat < 128) : 0 < b.toNat := by
  rw [UInt8.toNat_sub, UInt8.toNat_one] at h
  omega

/-- It does not matter where the loop over words stops. -/
theorem verifyUtf8Loop_skipAsciiWords (count : Nat) (hcount : 4 * count ≤ buffer.length) :
    parser.verifyUtf8Loop (skipAsciiWords count buffer) = parser.verifyUtf8Loop buffer := by
  induction count generalizing buffer with
  | zero => rfl
  | succ count ih =>
    match buffer, hcount with
    | b0 :: b1 :: b2 :: b3 :: rest, hcount =>
      rw [skipAsciiWords]
      simp only [List.getD_cons_zero, List.getD_cons_succ]
      split
      next => rfl
      next hres =>
        have hall := Nat.lt_of_not_le hres
        simp only [or_lt_iff] at hall
        obtain ⟨⟨⟨⟨⟨⟨⟨h0, h0'⟩, h1⟩, h1'⟩, h2⟩, h2'⟩, h3⟩, h3'⟩ := hall
        rw [verifyUtf8Loop_ascii (pos_of_pred_lt h0') h0,
          verifyUtf8Loop_ascii (pos_of_pred_lt h1') h1,
          verifyUtf8Loop_ascii (pos_of_pred_lt h2') h2,
          verifyUtf8Loop_ascii (pos_of_pred_lt h3') h3]
        refine ih ?_
        simp only [List.length_cons, List.drop_succ_cons, List.drop_zero] at hcount ⊢
        omega

/-- The checker accepts the concatenations of the forms of characters, and all the decoders read
such a string as the same characters. -/
theorem verifyLegalUtf8_iff (parser : ClassFileParser) (buffer : Bytes) :
    (parser.verifyLegalUtf8 buffer = .ok () ↔ ∃ cs, Encodes parser.majorVersion buffer cs) ∧
      (parser.verifyLegalUtf8 buffer = .ok () → ∃ cs, Steps buffer cs ∧
        cs.length = unicodeLength buffer ∧ cs.length = unicodeLengthToNul buffer ∧
        convertToUnicode (unicodeLength buffer) buffer = cs) := by
  have hcount : 4 * (buffer.length >>> 2) ≤ buffer.length := by
    rw [Nat.shiftRight_eq_div_pow]
    omega
  have haccepts : parser.verifyLegalUtf8 buffer = .ok () ↔
      ∃ cs, Encodes parser.majorVersion buffer cs := by
    rw [verifyLegalUtf8, verifyUtf8Loop_skipAsciiWords _ hcount, verifyUtf8Loop_iff]
  refine ⟨haccepts, fun hok => ?_⟩
  obtain ⟨cs, hencodes⟩ := haccepts.mp hok
  refine ⟨cs, hencodes.steps, hencodes.unicodeLength_eq.symm, hencodes.unicodeLengthToNul_eq.symm,
    ?_⟩
  have hconvert := hencodes.convertToUnicode_eq []
  rwa [List.append_nil, ← hencodes.unicodeLength_eq] at hconvert

/-- A parser of a class file whose strings are in shortest form. -/
def shortFormParser : ClassFileParser where
  majorVersion := 48
  needVerify := true
  className := []
  isJavaIdentifierStart _ := some true
  isJavaIdentifierPart _ := some true

/-- A letter, a zero and a surrogate pair. -/
theorem verifyLegalUtf8_iff_surrogates :
    let buffer : Bytes := [0x61, 0xC0, 0x80, 0xED, 0xA0, 0x80, 0xED, 0xB0, 0x80]
    shortFormParser.verifyLegalUtf8 buffer = .ok () ∧ ∃ cs, Steps buffer cs ∧
      cs.length = unicodeLength buffer ∧ convertToUnicode (unicodeLength buffer) buffer = cs := by
  intro buffer
  obtain ⟨haccepts, hdecodes⟩ := verifyLegalUtf8_iff shortFormParser buffer
  have hencodes : Encodes 48 buffer [0x61, 0, 0xD800, 0xDC00] :=
    .cons (.one (by decide) (by decide)) (fun _ => rfl)
      (.cons (.two (by decide) (by decide)) (fun _ => rfl)
        (.cons (.three (by decide) (by decide) (by decide)) (fun _ => rfl)
          (.cons (.three (by decide) (by decide) (by decide)) (fun _ => rfl) .nil)))
  have hok := haccepts.mpr ⟨_, hencodes⟩
  obtain ⟨cs, hsteps, hlength, -, hconvert⟩ := hdecodes hok
  exact ⟨hok, cs, hsteps, hlength, hconvert⟩

end HotSpot.ClassFileParser
