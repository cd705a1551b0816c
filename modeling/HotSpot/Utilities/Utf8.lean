import HotSpot.Classfile.Signature
import Mathlib

/-! # Modified UTF-8

The functions of `utf8.cpp` that decode and encode 16-bit characters. The lengths are
those of strings in memory, so that they are natural numbers; the `int` that `utf8_length`
counts in comes with the array that `as_utf8` asks for.
-/

namespace HotSpot

open ClassFileParser (Bytes deref)

namespace UNICODE

def utf8Size (c : Nat) : Nat :=
  if 0x0001 ≤ c ∧ c ≤ 0x007F then 1
  else if c ≤ 0x07FF then 2
  else 3

/-- A byte written to a buffer; there is none past its end. -/
def store (buf : Bytes) (p : Nat) (b : Nat) : Option Bytes :=
  if p < buf.length then some (buf.set p (UInt8.ofNat b)) else none

/-- `utf8_write`: the buffer and the end of what has been written. -/
def utf8Write (buf : Bytes) (base : Nat) (ch : UInt16) : Option (Bytes × Nat) :=
  let c := ch.toNat
  if c ≠ 0 ∧ c ≤ 0x7F then do
    let buf ← store buf base c
    return (buf, base + 1)
  else if c ≤ 0x7FF then do
    let buf ← store buf base ((c >>> 6) ||| 0xC0)
    let buf ← store buf (base + 1) ((c &&& 0x3F) ||| 0x80)
    return (buf, base + 2)
  else do
    let buf ← store buf base ((c >>> 12) ||| 0xE0)
    let buf ← store buf (base + 1) (((c >>> 6) &&& 0x3F) ||| 0x80)
    let buf ← store buf (base + 2) ((c &&& 0x3F) ||| 0x80)
    return (buf, base + 3)

/-- The loop over the characters that `as_utf8` and `convert_to_utf8` share. -/
def utf8WriteLoop (buf : Bytes) (p : Nat) : List UInt16 → Option (Bytes × Nat)
  | [] => some (buf, p)
  | ch :: base => do
      let (buf, p) ← utf8Write buf p ch
      utf8WriteLoop buf p base

/-- `convert_to_utf8` from the position `p` of the buffer on. -/
def convertToUtf8 (buf : Bytes) (p : Nat) : List UInt16 → Option Bytes
  | [] => store buf p 0
  | ch :: base => do
      let (buf, p) ← utf8Write buf p ch
      convertToUtf8 buf p base

/-- The loop of `as_utf8(jchar*, int, char*, int)` from `p` on, in a buffer that ends at `end_`. -/
def asUtf8Loop (end_ : Nat) (buf : Bytes) (p : Nat) : List UInt16 → Option Bytes
  | [] => store buf p 0
  | c :: base =>
    if end_ ≤ p + utf8Size c.toNat then store buf p 0 -- string is truncated
    else do
      let (buf, p) ← utf8Write buf p c
      asUtf8Loop end_ buf p base

def asUtf8Truncating (base : List UInt16) (buf : Bytes) (buflen : Nat) : Option Bytes :=
  asUtf8Loop buflen buf 0 base

end UNICODE

namespace ClassFileParser.UTF8

/-- The character and its length as the switch of `UTF8::next` finds them; none where the length
stays bad. -/
def character (str : Bytes) : Option (Nat × Nat) :=
  let ch := (str.getD 0 0).toNat
  let ch2 := (str.getD 1 0).toNat
  let ch3 := (str.getD 2 0).toNat
  match ch >>> 4 with
  | 0x8 | 0x9 | 0xA | 0xB | 0xF => none
  | 0xC | 0xD =>
    if ch2 &&& 0xC0 = 0x80 then some (((ch &&& 0x1F) <<< 6) + (ch2 &&& 0x3F), 2) else none
  | 0xE =>
    if ch2 &&& 0xC0 = 0x80 ∧ ch3 &&& 0xC0 = 0x80 then
      some (((((ch &&& 0x0F) <<< 6) + (ch2 &&& 0x3F)) <<< 6) + (ch3 &&& 0x3F), 3)
    else none
  | _ => some (ch, 1)

theorem next_eq (str : Bytes) : next str = (character str).getD ((str.getD 0 0).toNat, 1) := by
  simp only [next, character]
  generalize (str.getD 0 0).toNat >>> 4 = high
  split
  case h_6 | h_7 | h_8 => split_ifs <;> rfl
  case h_9 => simp_all
  all_goals rfl

/-- A byte of the form `10xxxxxx`. -/
def isContinuation (b : UInt8) : Bool := b.toNat &&& 0xC0 = 0x80

/-- The loop of `unicode_length(const char*, int)`. -/
def unicodeLengthLoop : Bytes → Nat → Nat
  | [], numChars => numChars
  | b :: str, numChars =>
    unicodeLengthLoop str (if isContinuation b then numChars - 1 else numChars)

def unicodeLength (str : Bytes) : Nat := unicodeLengthLoop str str.length

/-- `unicode_length(const char*)`, up to the terminating zero. -/
def unicodeLengthToNul : Bytes → Nat
  | [] => 0
  | b :: str =>
    if b = 0 then 0
    else if isContinuation b then unicodeLengthToNul str
    else unicodeLengthToNul str + 1

/-- The second loop of `convert_to_unicode`. -/
def convertRest : Nat → Bytes → List Nat
  | 0, _ => []
  | count + 1, ptr => (next ptr).1 :: convertRest count (ptr.drop (next ptr).2)

/-- `convert_to_unicode`, which goes over the ASCII characters in front first. -/
def convertToUnicode : Nat → Bytes → List Nat
  | 0, _ => []
  | count + 1, ptr =>
    let ch := (deref ptr).toNat
    if 0x7F < ch then convertRest (count + 1) ptr
    else ch :: convertToUnicode count (ptr.drop 1)

/-! ## Forms -/

theorem and_mask_eq (b : UInt8) : b.toNat &&& 0xC0 = 0x80 ↔ b.toNat / 64 = 2 := by
  have hall : ∀ n < 256, n &&& 0xC0 = 0x80 ↔ n / 64 = 2 := by decide +kernel
  exact hall _ b.toNat_lt

@[simp] theorem isContinuation_iff (b : UInt8) : isContinuation b = true ↔ b.toNat / 64 = 2 := by
  rw [isContinuation, decide_eq_true_iff, and_mask_eq]

theorem and_low_six (n : Nat) : n &&& 0x3F = n % 64 := Nat.and_two_pow_sub_one_eq_mod n 6

theorem and_low_five (n : Nat) : n &&& 0x1F = n % 32 := Nat.and_two_pow_sub_one_eq_mod n 5

theorem and_low_four (n : Nat) : n &&& 0x0F = n % 16 := Nat.and_two_pow_sub_one_eq_mod n 4

/-- The bytes that stand for one character: a byte of ASCII that is not zero, or a form of two or
three bytes. -/
inductive Form : Bytes → Nat → Prop
  | one {b : UInt8} (hpos : 0 < b.toNat) (hascii : b.toNat < 0x80) : Form [b] b.toNat
  | two {b b2 : UInt8} (hlead : b.toNat / 32 = 6) (hnext : b2.toNat / 64 = 2) :
      Form [b, b2] (b.toNat % 32 * 64 + b2.toNat % 64)
  | three {b b2 b3 : UInt8} (hlead : b.toNat / 16 = 14) (hnext : b2.toNat / 64 = 2)
      (hlast : b3.toNat / 64 = 2) :
      Form [b, b2, b3] ((b.toNat % 16 * 64 + b2.toNat % 64) * 64 + b3.toNat % 64)

/-- A concatenation of forms; from class files of version 48 on each is the shortest one, where
that of zero has two bytes. -/
inductive Encodes (majorVersion : Nat) : Bytes → List Nat → Prop
  | nil : Encodes majorVersion [] []
  | cons {form rest : Bytes} {c : Nat} {cs : List Nat} (hform : Form form c)
      (hshort : 47 < majorVersion → form.length = UNICODE.utf8Size c)
      (hrest : Encodes majorVersion rest cs) : Encodes majorVersion (form ++ rest) (c :: cs)

/-- The string in steps of `UTF8::next`, none of which takes the branch for a bad length or goes
past the end. -/
inductive Steps : Bytes → List Nat → Prop
  | nil : Steps [] []
  | cons {str : Bytes} {c len : Nat} {cs : List Nat} (hchar : character str = some (c, len))
      (hlen : len ≤ str.length) (hrest : Steps (str.drop len) cs) : Steps str (c :: cs)

variable {form rest str : Bytes} {c : Nat} {cs : List Nat} {majorVersion : Nat}

theorem Form.character (h : Form form c) : character (form ++ rest) = some (c, form.length) := by
  rw [UTF8.character]
  cases h with
  | @one b hpos hascii =>
    have hshift : b.toNat >>> 4 < 8 := by
      rw [Nat.shiftRight_eq_div_pow]
      omega
    simp only [List.cons_append, List.getD_cons_zero, List.length_singleton]
    split <;> first | rfl | omega
  | @two b b2 hlead hnext =>
    have hshift : b.toNat >>> 4 = 0xC ∨ b.toNat >>> 4 = 0xD := by
      rw [Nat.shiftRight_eq_div_pow]
      omega
    simp only [List.cons_append, List.getD_cons_zero, List.getD_cons_succ, and_mask_eq, hnext,
      and_low_six, and_low_five, Nat.shiftLeft_eq]
    rcases hshift with hshift | hshift <;> simp [hshift]
  | @three b b2 b3 hlead hnext hlast =>
    have hshift : b.toNat >>> 4 = 0xE := by
      rw [Nat.shiftRight_eq_div_pow]
      omega
    simp only [List.cons_append, List.getD_cons_zero, List.getD_cons_succ, and_mask_eq, hnext,
      hlast, and_low_six, and_low_four, Nat.shiftLeft_eq]
    simp [hshift]

theorem Form.next (h : Form form c) : next (form ++ rest) = (c, form.length) := by
  rw [next_eq, h.character, Option.getD_some]

theorem Form.ne_zero (h : Form form c) : ∀ b ∈ form, b ≠ 0 := by
  have hpos : ∀ b : UInt8, 0 < b.toNat → b ≠ 0 := by
    rintro b hb rfl
    exact Nat.lt_irrefl _ hb
  intro b hb
  apply hpos
  cases h <;> simp only [List.mem_cons, List.not_mem_nil, or_false] at hb
  · subst hb
    assumption
  · rcases hb with rfl | rfl <;> omega
  · rcases hb with rfl | rfl | rfl <;> omega

/-- All the bytes of a form but its first are continuation bytes. -/
theorem Form.tail (h : Form form c) :
    ∃ b more, form = b :: more ∧ isContinuation b = false ∧
      ∀ b ∈ more, isContinuation b = true := by
  have hlead : ∀ b : UInt8, b.toNat / 64 ≠ 2 → isContinuation b = false := by
    intro b hb
    rwa [← Bool.not_eq_true, isContinuation_iff]
  cases h with
  | one hpos hascii => exact ⟨_, _, rfl, hlead _ (by omega), by simp⟩
  | two hfirst hnext => exact ⟨_, _, rfl, hlead _ (by omega), by simp [hnext]⟩
  | three hfirst hnext hlast => exact ⟨_, _, rfl, hlead _ (by omega), by simp [hnext, hlast]⟩

namespace Encodes

theorem steps (h : Encodes majorVersion str cs) : Steps str cs := by
  induction h with
  | nil => exact .nil
  | cons hform hshort hrest ih =>
    refine .cons hform.character (by simp) ?_
    rwa [List.drop_left]

theorem ne_zero (h : Encodes majorVersion str cs) : ∀ b ∈ str, b ≠ 0 := by
  induction h with
  | nil => simp
  | cons hform hshort hrest ih =>
    intro b hb
    exact (List.mem_append.mp hb).elim (hform.ne_zero b) (ih b)

theorem unicodeLengthToNul_append {more : Bytes} (hzero : ∀ b ∈ more, b ≠ 0)
    (hmore : ∀ b ∈ more, isContinuation b = true) :
    unicodeLengthToNul (more ++ rest) = unicodeLengthToNul rest := by
  induction more with
  | nil => rfl
  | cons b more ih =>
    rw [List.forall_mem_cons] at hzero hmore
    rw [List.cons_append, unicodeLengthToNul, if_neg hzero.1, if_pos hmore.1, ih hzero.2 hmore.2]

theorem unicodeLengthToNul_eq (h : Encodes majorVersion str cs) :
    unicodeLengthToNul str = cs.length := by
  induction h with
  | nil => rfl
  | cons hform hshort hrest ih =>
    have hzero := hform.ne_zero
    obtain ⟨b, more, rfl, hlead, hmore⟩ := hform.tail
    rw [List.forall_mem_cons] at hzero
    rw [List.cons_append, unicodeLengthToNul, if_neg hzero.1, hlead, if_neg (by simp),
      unicodeLengthToNul_append hzero.2 hmore, ih, List.length_cons]

/-- What follows the terminating zero does not count. -/
theorem unicodeLengthToNul_nul (hzero : ∀ b ∈ str, b ≠ 0) :
    unicodeLengthToNul (str ++ [0]) = unicodeLengthToNul str := by
  induction str with
  | nil => rfl
  | cons b str ih =>
    rw [List.forall_mem_cons] at hzero
    rw [List.cons_append, unicodeLengthToNul, unicodeLengthToNul, ih hzero.2]

theorem unicodeLengthLoop_eq (str : Bytes) (hzero : ∀ b ∈ str, b ≠ 0) (numChars : Nat) :
    unicodeLengthLoop str (numChars + str.length) = numChars + unicodeLengthToNul str := by
  induction str generalizing numChars with
  | nil => rfl
  | cons b str ih =>
    rw [List.forall_mem_cons] at hzero
    rw [unicodeLengthLoop, unicodeLengthToNul, if_neg hzero.1, List.length_cons]
    split
    next => exact ih hzero.2 numChars
    next =>
      rw [show numChars + (str.length + 1) = numChars + 1 + str.length by omega, ih hzero.2]
      omega

/-- The two ways to count the characters agree. -/
theorem unicodeLength_eq (h : Encodes majorVersion str cs) : unicodeLength str = cs.length := by
  have hloop := unicodeLengthLoop_eq str h.ne_zero 0
  rw [Nat.zero_add, Nat.zero_add, h.unicodeLengthToNul_eq] at hloop
  exact hloop

theorem convertRest_eq (h : Encodes majorVersion str cs) (more : Bytes) :
    convertRest cs.length (str ++ more) = cs := by
  induction h with
  | nil => rfl
  | cons hform hshort hrest ih =>
    rw [List.length_cons, convertRest, List.append_assoc, hform.next, List.drop_left, ih]

theorem convertToUnicode_eq (h : Encodes majorVersion str cs) (more : Bytes) :
    convertToUnicode cs.length (str ++ more) = cs := by
  have hall := h
  induction h with
  | nil => rfl
  | @cons form rest c cs hform hshort hrest ih =>
    have hconvert := hall.convertRest_eq more
    rw [List.length_cons] at hconvert ⊢
    rw [convertToUnicode]
    split
    next => exact hconvert
    next hle =>
      -- an ASCII byte is a form of its own
      cases hform with
      | one hpos hascii =>
        rw [List.cons_append, List.nil_append, List.cons_append, deref, List.headD_cons,
          List.drop_one, List.tail_cons, ih hrest]
      | two hlead hnext =>
        rw [List.cons_append, List.cons_append, deref, List.headD_cons] at hle
        omega
      | three hlead hnext hlast =>
        rw [List.cons_append, List.cons_append, deref, List.headD_cons] at hle
        omega

end Encodes

end ClassFileParser.UTF8

/-! ## Encoding -/

namespace UNICODE

open ClassFileParser.UTF8

/-- The bytes that `utf8_write` writes for a character. -/
def encodeChar (ch : UInt16) : Bytes :=
  let c := ch.toNat
  if c ≠ 0 ∧ c ≤ 0x7F then [UInt8.ofNat c]
  else if c ≤ 0x7FF then
    [UInt8.ofNat (c / 64 + 0xC0), UInt8.ofNat (c % 64 + 0x80)]
  else
    [UInt8.ofNat (c / 4096 + 0xE0), UInt8.ofNat (c / 64 % 64 + 0x80), UInt8.ofNat (c % 64 + 0x80)]

/-- The encoding of a sequence of characters, without the terminating zero. -/
def encode (chars : List UInt16) : Bytes := chars.flatMap encodeChar

variable {ch : UInt16} {chars : List UInt16} {done fresh rest : Bytes}

theorem encode_cons : encode (ch :: chars) = encodeChar ch ++ encode chars := List.flatMap_cons

theorem form_encodeChar (ch : UInt16) : Form (encodeChar ch) ch.toNat := by
  have hlt := ch.toNat_lt
  have hbyte : ∀ n, n < 256 → (UInt8.ofNat n).toNat = n := fun n hn =>
    UInt8.toNat_ofNat_of_lt hn
  rw [encodeChar]
  split_ifs with hascii htwo
  · have hform := @Form.one (UInt8.ofNat ch.toNat) (by rw [hbyte _ (by omega)]; omega)
      (by rw [hbyte _ (by omega)]; omega)
    rwa [hbyte _ (by omega)] at hform
  · have hform :=
      @Form.two (UInt8.ofNat (ch.toNat / 64 + 0xC0)) (UInt8.ofNat (ch.toNat % 64 + 0x80))
      (by rw [hbyte _ (by omega)]; omega) (by rw [hbyte _ (by omega)]; omega)
    rw [hbyte _ (by omega), hbyte _ (by omega)] at hform
    convert hform using 1
    omega
  · have hform := @Form.three (UInt8.ofNat (ch.toNat / 4096 + 0xE0))
      (UInt8.ofNat (ch.toNat / 64 % 64 + 0x80)) (UInt8.ofNat (ch.toNat % 64 + 0x80))
      (by rw [hbyte _ (by omega)]; omega) (by rw [hbyte _ (by omega)]; omega)
      (by rw [hbyte _ (by omega)]; omega)
    rw [hbyte _ (by omega), hbyte _ (by omega), hbyte _ (by omega)] at hform
    convert hform using 1
    omega

theorem length_encodeChar (ch : UInt16) : (encodeChar ch).length = utf8Size ch.toNat := by
  rw [encodeChar, utf8Size]
  split_ifs <;> first | rfl | omega

theorem encodes_encode (chars : List UInt16) (majorVersion : Nat) :
    Encodes majorVersion (encode chars) (chars.map (·.toNat)) := by
  induction chars with
  | nil => exact .nil
  | cons ch chars ih => exact .cons (form_encodeChar ch) (fun _ => length_encodeChar ch) ih

theorem store_append {b : UInt8} (value : Nat) :
    store (done ++ b :: rest) done.length value = some (done ++ UInt8.ofNat value :: rest) := by
  rw [store, if_pos (by simp), List.set_append_right _ _ (Nat.le_refl _), Nat.sub_self,
    List.set_cons_zero]

/-- The second byte of those that follow `done`. -/
theorem store_append_one {b b2 : UInt8} (value : Nat) :
    store (done ++ b :: b2 :: rest) (done.length + 1) value =
      some (done ++ b :: UInt8.ofNat value :: rest) := by
  have hstore := @store_append (done ++ [b]) rest b2 value
  simpa using hstore

theorem store_append_two {b b2 b3 : UInt8} (value : Nat) :
    store (done ++ b :: b2 :: b3 :: rest) (done.length + 2) value =
      some (done ++ b :: b2 :: UInt8.ofNat value :: rest) := by
  have hstore := @store_append (done ++ [b, b2]) rest b3 value
  simpa using hstore

theorem or_high_three {n : Nat} (hn : n < 64) : n ||| 0x80 = n + 0x80 := by
  have hall : ∀ n < 64, n ||| 0x80 = n + 0x80 := by decide
  exact hall n hn

theorem or_high_two {n : Nat} (hn : n < 32) : n ||| 0xC0 = n + 0xC0 := by
  have hall : ∀ n < 32, n ||| 0xC0 = n + 0xC0 := by decide
  exact hall n hn

theorem or_high_four {n : Nat} (hn : n < 16) : n ||| 0xE0 = n + 0xE0 := by
  have hall : ∀ n < 16, n ||| 0xE0 = n + 0xE0 := by decide
  exact hall n hn

/-- `utf8_write` puts the bytes of the character in place of those that follow `done`. -/
theorem utf8Write_append (hfresh : fresh.length = (encodeChar ch).length) :
    utf8Write (done ++ fresh ++ rest) done.length ch =
      some (done ++ encodeChar ch ++ rest, done.length + fresh.length) := by
  have hlt := ch.toNat_lt
  rw [hfresh]
  rw [encodeChar] at hfresh ⊢
  rw [utf8Write]
  simp only [and_low_six, Nat.shiftRight_eq_div_pow]
  split_ifs at hfresh ⊢ with hascii htwo
  · obtain ⟨b, rfl⟩ := List.length_eq_one_iff.mp hfresh
    simp [store_append]
  · obtain ⟨b, b2, rfl⟩ := List.length_eq_two.mp hfresh
    rw [or_high_two (by omega), or_high_three (by omega)]
    simp [store_append, store_append_one]
  · obtain ⟨b, b2, b3, rfl⟩ := List.length_eq_three.mp hfresh
    rw [or_high_four (by omega), or_high_three (by omega), or_high_three (by omega)]
    simp [store_append, store_append_one, store_append_two]

theorem utf8WriteLoop_append (hfresh : fresh.length = (encode chars).length) :
    utf8WriteLoop (done ++ fresh ++ rest) done.length chars =
      some (done ++ encode chars ++ rest, done.length + fresh.length) := by
  induction chars generalizing done fresh with
  | nil =>
    obtain rfl := List.length_eq_zero_iff.mp hfresh
    rfl
  | cons ch chars ih =>
    rw [encode_cons, List.length_append] at hfresh
    -- the room for this character and that for the others
    obtain ⟨now, later, rfl, hnow, hlater⟩ : ∃ now later, fresh = now ++ later ∧
        now.length = (encodeChar ch).length ∧ later.length = (encode chars).length :=
      ⟨fresh.take (encodeChar ch).length, fresh.drop (encodeChar ch).length,
        (List.take_append_drop _ _).symm, by rw [List.length_take]; omega,
        by rw [List.length_drop]; omega⟩
    have hwrite := @utf8Write_append ch done now (later ++ rest) hnow
    have hrest := @ih (done ++ encodeChar ch) later hlater
    rw [List.length_append, ← hnow] at hrest
    rw [utf8WriteLoop, encode_cons]
    simp only [List.append_assoc, List.length_append, ← Nat.add_assoc] at hwrite hrest ⊢
    rw [hwrite]
    exact hrest

theorem convertToUtf8_eq (buf : Bytes) (p : Nat) (chars : List UInt16) :
    convertToUtf8 buf p chars = (utf8WriteLoop buf p chars).bind fun (buf, p) => store buf p 0 := by
  induction chars generalizing buf p with
  | nil => rfl
  | cons ch chars ih =>
    rw [convertToUtf8, utf8WriteLoop]
    cases utf8Write buf p ch with
    | none => rfl
    | some written => exact ih _ _

theorem convertToUtf8_append {z : UInt8} (hfresh : fresh.length = (encode chars).length) :
    convertToUtf8 (done ++ fresh ++ z :: rest) done.length chars =
      some (done ++ encode chars ++ 0 :: rest) := by
  rw [convertToUtf8_eq, utf8WriteLoop_append hfresh, hfresh, Option.bind_some, ← List.length_append]
  exact store_append 0

/-- The terminating zero, where nothing has been written behind `done`. -/
theorem store_nul {left beyond : Bytes} (hleft : 0 < left.length) :
    store (done ++ left ++ beyond) done.length 0 =
      some (done ++ encode [] ++ 0 :: (left.drop ((encode []).length + 1) ++ beyond)) := by
  obtain ⟨b, more, rfl⟩ := List.exists_cons_of_ne_nil (List.ne_nil_of_length_pos hleft)
  rw [List.append_assoc, List.cons_append, store_append]
  simp [encode]

/-- The truncated encoding is that of the longest prefix with room for the terminating zero. -/
theorem asUtf8Loop_append {left beyond : Bytes} (hleft : 0 < left.length) :
    ∃ k, k ≤ chars.length ∧ (encode (chars.take k)).length < left.length ∧
      (∀ j, j ≤ chars.length → (encode (chars.take j)).length < left.length → j ≤ k) ∧
      asUtf8Loop (done.length + left.length) (done ++ left ++ beyond) done.length chars =
        some (done ++ encode (chars.take k) ++
          0 :: (left.drop ((encode (chars.take k)).length + 1) ++ beyond)) := by
  induction chars generalizing done left with
  | nil => exact ⟨0, Nat.le_refl 0, hleft, fun j hj _ => hj, store_nul hleft⟩
  | cons c chars ih =>
    have hlength := length_encodeChar c
    by_cases htruncate : done.length + left.length ≤ done.length + utf8Size c.toNat
    · refine ⟨0, Nat.zero_le _, hleft, fun j _ hfits => ?_, ?_⟩
      · cases j with
        | zero => exact Nat.le_refl 0
        | succ j =>
          rw [List.take_succ_cons, encode_cons, List.length_append] at hfits
          omega
      · rw [asUtf8Loop, if_pos htruncate]
        exact store_nul hleft
    · obtain ⟨now, later, rfl, hnow, hlater⟩ : ∃ now later, left = now ++ later ∧
          now.length = (encodeChar c).length ∧ 0 < later.length :=
        ⟨left.take (encodeChar c).length, left.drop (encodeChar c).length,
          (List.take_append_drop _ _).symm, by rw [List.length_take]; omega,
          by rw [List.length_drop]; omega⟩
      obtain ⟨k, hk, hfits, hmax, hloop⟩ := @ih (done ++ encodeChar c) later hlater
      have hwrite := @utf8Write_append c done now (later ++ beyond) hnow
      refine ⟨k + 1, by simpa using hk, ?_, fun j hj hfits' => ?_, ?_⟩
      · rw [List.take_succ_cons, encode_cons, List.length_append, List.length_append]
        omega
      · cases j with
        | zero => exact Nat.zero_le _
        | succ j =>
          rw [List.take_succ_cons, encode_cons, List.length_append, List.length_append] at hfits'
          have := hmax j (by simpa using hj) (by omega)
          omega
      · have hdrop : (now ++ later).drop ((encodeChar c ++ encode (chars.take k)).length + 1) =
            later.drop ((encode (chars.take k)).length + 1) := by
          rw [List.length_append, ← hnow, Nat.add_assoc, List.drop_length_add_append]
        rw [asUtf8Loop, if_neg htruncate, List.take_succ_cons, encode_cons, hdrop]
        rw [List.length_append, ← hnow] at hloop
        simp only [List.append_assoc, List.length_append, ← Nat.add_assoc] at hwrite hloop ⊢
        rw [hwrite]
        exact hloop

/-- `convert_to_utf8` with room for the encoding and the terminating zero. -/
theorem convertToUtf8_of_room {buf : Bytes} (hbuf : (encode chars).length < buf.length) :
    convertToUtf8 buf 0 chars =
      some (encode chars ++ 0 :: buf.drop ((encode chars).length + 1)) := by
  have hsplit : buf = buf.take (encode chars).length ++
      buf[(encode chars).length] :: buf.drop ((encode chars).length + 1) := by
    rw [List.getElem_cons_drop, List.take_append_drop]
  have happend := @convertToUtf8_append chars [] (buf.take (encode chars).length)
    (buf.drop ((encode chars).length + 1)) buf[(encode chars).length]
    (by rw [List.length_take]; omega)
  rw [List.nil_append, ← hsplit, List.nil_append] at happend
  exact happend

/-- The truncating `as_utf8` in a buffer `buf` with the memory `beyond` it. -/
theorem asUtf8Truncating_longest {buf beyond : Bytes} (hbuf : 1 ≤ buf.length) :
    ∃ k, k ≤ chars.length ∧ (encode (chars.take k)).length ≤ buf.length - 1 ∧
      (∀ j, j ≤ chars.length → (encode (chars.take j)).length ≤ buf.length - 1 → j ≤ k) ∧
      asUtf8Truncating chars (buf ++ beyond) buf.length =
        some (encode (chars.take k) ++
          0 :: (buf.drop ((encode (chars.take k)).length + 1) ++ beyond)) := by
  obtain ⟨k, hk, hfits, hmax, hloop⟩ := @asUtf8Loop_append chars [] buf beyond hbuf
  refine ⟨k, hk, by omega, fun j hj hfits' => hmax j hj (by omega), ?_⟩
  rw [List.length_nil, Nat.zero_add] at hloop
  exact hloop

end UNICODE

end HotSpot
