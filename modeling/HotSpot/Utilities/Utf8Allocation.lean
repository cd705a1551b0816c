import HotSpot.Utilities.Utf8
import Mathlib

/-! # The array of `as_utf8`

`utf8_length` counts in an `int`, and `as_utf8` asks for one byte more than the count. Here
both are 32 bits wide, and the bytes are written to the block that the arena hands out.
-/

/-! ## Arenas

`Arena::Amalloc` moves the high water mark of the current chunk. The sum that it compares
with the end of the chunk is one of pointers and wraps around.
-/

namespace HotSpot

/-- `os::malloc`: a block below the upper half of the address space, or none. -/
structure Malloc where
  alloc : Nat → Option Nat
  fits : ∀ bytes p, alloc bytes = some p → p + bytes < 2 ^ 63

namespace Chunk

def size : Nat := 32 * 1024 - 40

def alignedOverheadSize : Nat := 16

/-- The length of the chunk that `Arena::grow` asks for. -/
def growLen (x : Nat) : Nat := max x size

/-- The mark stays in the new chunk, wrapped around or not. -/
theorem growLen_bounds {x p : Nat} (hx : x < 2 ^ 64)
    (hfits : p + (alignedOverheadSize + growLen x) % 2 ^ 64 < 2 ^ 63) :
    (p + alignedOverheadSize + x) % 2 ^ 64 ≤ (p + alignedOverheadSize + growLen x) % 2 ^ 64 ∧
      (p + alignedOverheadSize + growLen x) % 2 ^ 64 < 2 ^ 63 := by
  have hmax : growLen x = x ∨ growLen x = size := max_choice x size
  have hle : x ≤ growLen x := le_max_left x size
  generalize growLen x = len at *
  simp only [size, alignedOverheadSize] at *
  omega

end Chunk

/-- The free part of the current chunk. -/
structure Arena where
  hwm : Nat
  max : Nat
  hwm_le : hwm ≤ max
  max_lt : max < 2 ^ 63

namespace Arena

open Chunk

/-- `ARENA_ALIGN`, to two words. -/
def arenaAlign (x : Nat) : Nat := (x + 15) % 2 ^ 64 / 16 * 16

theorem arenaAlign_lt (x : Nat) : arenaAlign x < 2 ^ 64 := by
  rw [arenaAlign]
  omega

/-- The block and the arena with a new chunk; none where the VM exits. -/
def grow (os : Malloc) (x : Nat) (hx : x < 2 ^ 64) : Option (Nat × Arena) :=
  match h : os.alloc ((alignedOverheadSize + growLen x) % 2 ^ 64) with
  | none => none
  | some p =>
    let bottom := p + alignedOverheadSize
    some (bottom,
      { hwm := (bottom + x) % 2 ^ 64
        max := (bottom + growLen x) % 2 ^ 64
        hwm_le := (growLen_bounds hx (os.fits _ _ h)).1
        max_lt := (growLen_bounds hx (os.fits _ _ h)).2 })

def amalloc (arena : Arena) (os : Malloc) (size : Nat) : Option (Nat × Arena) :=
  let x := arenaAlign size
  if h : arena.max < (arena.hwm + x) % 2 ^ 64 then grow os x (arenaAlign_lt size)
  else
    some (arena.hwm,
      { arena with hwm := (arena.hwm + x) % 2 ^ 64, hwm_le := Nat.le_of_not_lt h })

/-- A block of no more than a quarter of the address space lies below the new mark. -/
theorem add_size_le_hwm {arena arena' : Arena} {os : Malloc} {size p : Nat}
    (hsize : size < 2 ^ 62) (halloc : arena.amalloc os size = some (p, arena')) :
    p + size ≤ arena'.hwm := by
  have halign : size ≤ arenaAlign size ∧ arenaAlign size < 2 ^ 62 + 16 := by
    rw [arenaAlign]
    omega
  have hbounds := And.intro arena.hwm_le arena.max_lt
  rw [amalloc] at halloc
  split at halloc
  next hfull =>
    simp only [grow] at halloc
    split at halloc
    next => simp at halloc
    next start hstart =>
      have hfits := os.fits _ _ hstart
      have hmax := max_choice (arenaAlign size) Chunk.size
      rw [← growLen] at hmax
      simp only [Option.some.injEq, Prod.mk.injEq] at halloc
      obtain ⟨rfl, rfl⟩ := halloc
      simp only [Chunk.size, alignedOverheadSize] at *
      omega
  next hroom =>
    simp only [Option.some.injEq, Prod.mk.injEq] at halloc
    obtain ⟨rfl, rfl⟩ := halloc
    simp only
    omega

end Arena

/-! ## Counting and writing -/

open ClassFileParser (Bytes)

namespace UNICODE

/-- `utf8_length`, which adds the sizes up in an `int`. -/
def utf8LengthInt : List UInt16 → BitVec 32 → BitVec 32
  | [], result => result
  | c :: base, result =>
    if 0x0001 ≤ c.toNat ∧ c.toNat ≤ 0x007F then utf8LengthInt base (result + 1)
    else if c.toNat ≤ 0x07FF then utf8LengthInt base (result + 2)
    else utf8LengthInt base (result + 3)

inductive AsUtf8Failure
  | outOfMemory
  | overrun
  | assertion
  deriving DecidableEq, Repr

/-- `as_utf8(jchar*, int)`, where the bytes from the block to the high water mark of the arena
hold `fresh`. -/
def asUtf8InArena (os : Malloc) (arena : Arena) (fresh : Nat → UInt8) (base : List UInt16) :
    Except AsUtf8Failure Bytes := do
  let utf8Len := utf8LengthInt base 0
  -- the `int` is converted to a `size_t`
  let some (result, arena) := arena.amalloc os ((utf8Len + 1).signExtend 64).toNat
    | throw .outOfMemory
  let some (block, p) := utf8WriteLoop ((List.range (arena.hwm - result)).map fresh) 0 base
    | throw .overrun
  let some block := store block p 0
    | throw .overrun
  if BitVec.ofNat 64 (result + p) = BitVec.ofNat 64 result + utf8Len.signExtend 64 then
    return block
  else throw .assertion

/-- The count is right, the bytes written fit into the block, and the assertion on the count
holds, whatever the arena has left. -/
structure LengthPredicted (base : List UInt16) : Prop where
  utf8Length : (utf8LengthInt base 0).toInt = (encode base).length
  fits : ∀ os arena fresh, asUtf8InArena os arena fresh base ≠ .error .overrun
  asserted : ∀ os arena fresh, asUtf8InArena os arena fresh base ≠ .error .assertion

variable {chars : List UInt16}

/-- The `int` is the sum modulo its width. -/
theorem utf8LengthInt_eq (chars : List UInt16) (result : BitVec 32) :
    utf8LengthInt chars result = result + BitVec.ofNat 32 (encode chars).length := by
  induction chars generalizing result with
  | nil => exact (BitVec.add_zero result).symm
  | cons ch chars ih =>
    have hlength := length_encodeChar ch
    rw [utf8Size] at hlength
    rw [utf8LengthInt, ih, ih, ih, encode_cons, List.length_append, BitVec.ofNat_add,
      ← BitVec.add_assoc]
    split_ifs at hlength ⊢ <;> rw [hlength] <;> rfl

theorem utf8LengthInt_zero (chars : List UInt16) :
    utf8LengthInt chars 0 = BitVec.ofNat 32 (encode chars).length := by
  rw [utf8LengthInt_eq]
  exact BitVec.zero_add _

theorem toInt_utf8LengthInt_iff :
    (utf8LengthInt chars 0).toInt = (encode chars).length ↔ (encode chars).length < 2 ^ 31 := by
  rw [utf8LengthInt_zero, BitVec.toInt_eq_toNat_cond, BitVec.toNat_ofNat]
  split_ifs <;> omega

theorem toNat_signExtend_ofNat {n : Nat} (hn : n < 2 ^ 31) :
    ((BitVec.ofNat 32 n).signExtend 64).toNat = n := by
  have hmsb : (BitVec.ofNat 32 n).msb = false := by
    rw [BitVec.msb_eq_false_iff_two_mul_lt, BitVec.toNat_ofNat]
    omega
  rw [BitVec.signExtend_eq_setWidth_of_msb_false hmsb, BitVec.toNat_setWidth, BitVec.toNat_ofNat]
  omega

theorem utf8Len_add_one :
    utf8LengthInt chars 0 + 1 = BitVec.ofNat 32 ((encode chars).length + 1) := by
  rw [utf8LengthInt_zero, BitVec.ofNat_add]
  rfl

/-- With room for the terminating zero in an `int`, the string is written or the VM exits. -/
theorem asUtf8InArena_eq (hlength : (encode chars).length + 1 < 2 ^ 31) (os : Malloc)
    (arena : Arena) (fresh : Nat → UInt8) :
    asUtf8InArena os arena fresh chars = .error .outOfMemory ∨
      ∃ rest, asUtf8InArena os arena fresh chars = .ok (encode chars ++ 0 :: rest) := by
  have hsize : ((utf8LengthInt chars 0 + 1).signExtend 64).toNat = (encode chars).length + 1 := by
    rw [utf8Len_add_one, toNat_signExtend_ofNat hlength]
  rw [asUtf8InArena, hsize]
  cases halloc : arena.amalloc os ((encode chars).length + 1) with
  | none => exact Or.inl rfl
  | some allocated =>
    obtain ⟨result, arena'⟩ := allocated
    have hroom := Arena.add_size_le_hwm (by omega) halloc
    -- the bytes for the characters, that for the zero and the others
    obtain ⟨now, z, rest, hblock, hnow⟩ : ∃ now z rest,
        (List.range (arena'.hwm - result)).map fresh = now ++ z :: rest ∧
          now.length = (encode chars).length := by
      have hsplit := List.take_append_drop (encode chars).length
        ((List.range (arena'.hwm - result)).map fresh)
      obtain ⟨z, rest, hz⟩ := List.exists_cons_of_ne_nil (l :=
          ((List.range (arena'.hwm - result)).map fresh).drop (encode chars).length) (by
        rw [ne_eq, List.drop_eq_nil_iff, List.length_map, List.length_range]
        omega)
      refine ⟨_, z, rest, (hz ▸ hsplit).symm, ?_⟩
      rw [List.length_take, List.length_map, List.length_range]
      omega
    have hwrite := @utf8WriteLoop_append chars [] now (z :: rest) hnow
    have hstore := @store_append (encode chars) rest z 0
    have hlen : BitVec.ofNat 64 (result + (encode chars).length) =
        BitVec.ofNat 64 result + (utf8LengthInt chars 0).signExtend 64 := by
      rw [BitVec.ofNat_add]
      congr 1
      apply BitVec.eq_of_toNat_eq
      rw [utf8LengthInt_zero, toNat_signExtend_ofNat (by omega), BitVec.toNat_ofNat]
      omega
    simp only [List.nil_append, List.length_nil, Nat.zero_add, hnow] at hwrite
    refine Or.inr ⟨rest, ?_⟩
    simp only [hblock, hwrite, hstore, hlen]
    rfl

/-- A system without memory, and an arena with no room in its chunk. -/
def exhausted : Malloc := ⟨fun _ => none, fun _ _ h => by simp at h⟩
def fullArena : Arena := ⟨2 ^ 32, 2 ^ 32, Nat.le_refl _, by decide⟩

/-- The byte for the terminating zero makes the count negative; as a pointer difference that
moves the high water mark back below the block. -/
theorem asUtf8InArena_overrun (hlength : (encode chars).length + 1 = 2 ^ 31) :
    asUtf8InArena exhausted fullArena (fun _ => 0) chars = .error .overrun := by
  have hsize : ((utf8LengthInt chars 0 + 1).signExtend 64).toNat = 2 ^ 64 - 2 ^ 31 := by
    rw [utf8Len_add_one, hlength]
    decide
  cases chars with
  | nil => simp [encode] at hlength
  | cons ch chars =>
    have hstore : ∀ p b, store [] p b = none := fun p b => rfl
    have hwrite : utf8WriteLoop [] 0 (ch :: chars) = none := by
      rw [utf8WriteLoop, utf8Write]
      simp only [hstore]
      split_ifs <;> rfl
    have halloc : (fullArena.amalloc exhausted (2 ^ 64 - 2 ^ 31)).map
        (fun allocated => (allocated.1, allocated.2.hwm)) = some (2 ^ 32, 2 ^ 32 - 2 ^ 31) := by
      decide
    rw [asUtf8InArena, hsize]
    cases hres : fullArena.amalloc exhausted (2 ^ 64 - 2 ^ 31) with
    | none =>
      rw [hres] at halloc
      cases halloc
    | some allocated =>
      rw [hres, Option.map_some, Option.some.injEq, Prod.mk.injEq] at halloc
      simp only [halloc.1, halloc.2]
      rw [show 2 ^ 32 - 2 ^ 31 - 2 ^ 32 = 0 by decide, List.range_zero, List.map_nil, hwrite]
      rfl

/-- The count and the block are right just where an `int` can count the encoding and its
terminating zero. -/
theorem lengthPredicted_iff (base : List UInt16) :
    LengthPredicted base ↔ (encode base).length + 1 < 2 ^ 31 := by
  constructor
  · intro hpredicted
    have hlt := toInt_utf8LengthInt_iff.mp hpredicted.utf8Length
    by_contra hge
    exact hpredicted.fits _ _ _ (asUtf8InArena_overrun (by omega))
  · intro hlength
    refine ⟨toInt_utf8LengthInt_iff.mpr (by omega), fun os arena fresh => ?_,
      fun os arena fresh => ?_⟩
    · rcases asUtf8InArena_eq hlength os arena fresh with h | ⟨rest, h⟩ <;> rw [h] <;> simp
    · rcases asUtf8InArena_eq hlength os arena fresh with h | ⟨rest, h⟩ <;> rw [h] <;> simp

theorem length_encode_replicate (n : Nat) (ch : UInt16) :
    (encode (List.replicate n ch)).length = n * utf8Size ch.toNat := by
  induction n with
  | zero => simp [encode]
  | succ n ih =>
    rw [List.replicate_succ, encode_cons, List.length_append, ih, length_encodeChar,
      Nat.succ_mul, Nat.add_comm]

/-- About a third of 2³² characters of three bytes are counted as two bytes. -/
theorem utf8LengthInt_wraps :
    (List.replicate 1431655766 (0x0800 : UInt16)).length < 2 ^ 31 ∧
      utf8LengthInt (List.replicate 1431655766 0x0800) 0 = 2 ∧
      ¬LengthPredicted (List.replicate 1431655766 0x0800) := by
  have hlength : (encode (List.replicate 1431655766 (0x0800 : UInt16))).length = 2 ^ 32 + 2 :=
    length_encode_replicate _ _
  refine ⟨by rw [List.length_replicate]; decide, ?_, fun hpredicted => ?_⟩
  · rw [utf8LengthInt_zero, hlength]
    decide
  · have := toInt_utf8LengthInt_iff.mp hpredicted.utf8Length
    omega

/-! ## The round trip -/

open ClassFileParser.UTF8 in
/-- Encoding characters and decoding them again. A buffer is given with the memory `beyond` it;
there is nothing to write to past this. -/
structure RoundTrips (chars : List UInt16) : Prop where
  utf8Length : (utf8LengthInt chars 0).toInt = (encode chars).length
  ne_zero : ∀ b ∈ encode chars, b ≠ 0
  encodes : Encodes 48 (encode chars) (chars.map (·.toNat))
  convertToUtf8 : ∀ buf : Bytes, (encode chars).length < buf.length →
    convertToUtf8 buf 0 chars = some (encode chars ++ 0 :: buf.drop ((encode chars).length + 1))
  asUtf8 : ∀ os arena fresh, asUtf8InArena os arena fresh chars = .error .outOfMemory ∨
    ∃ rest, asUtf8InArena os arena fresh chars = .ok (encode chars ++ 0 :: rest)
  unicodeLength : unicodeLength (encode chars) = chars.length
  unicodeLengthToNul : unicodeLengthToNul (encode chars ++ [0]) = chars.length
  convertToUnicode : ∀ more,
    convertToUnicode chars.length (encode chars ++ more) = chars.map (·.toNat)
  truncating : ∀ buf beyond : Bytes, 1 ≤ buf.length → ∃ k, k ≤ chars.length ∧
    (encode (chars.take k)).length ≤ buf.length - 1 ∧
    (∀ j, j ≤ chars.length → (encode (chars.take j)).length ≤ buf.length - 1 → j ≤ k) ∧
    asUtf8Truncating chars (buf ++ beyond) buf.length =
      some (encode (chars.take k) ++
        0 :: (buf.drop ((encode (chars.take k)).length + 1) ++ beyond))

open ClassFileParser.UTF8 in
theorem roundTrips_of_lt (hlength : (encode chars).length + 1 < 2 ^ 31) : RoundTrips chars := by
  have hencodes := encodes_encode chars 48
  have hcount : (chars.map (·.toNat)).length = chars.length := List.length_map ..
  refine ⟨toInt_utf8LengthInt_iff.mpr (by omega), hencodes.ne_zero, hencodes,
    fun buf => convertToUtf8_of_room, asUtf8InArena_eq hlength,
    hencodes.unicodeLength_eq.trans hcount, ?_, fun more => ?_,
    fun buf beyond => asUtf8Truncating_longest⟩
  · rw [← hcount, ← hencodes.unicodeLengthToNul_eq]
    exact Encodes.unicodeLengthToNul_nul hencodes.ne_zero
  · rw [← hcount]
    exact hencodes.convertToUnicode_eq more

/-- The byte for the terminating zero is the one that an encoding of `2³¹ - 1` bytes lacks. -/
theorem not_roundTrips_of_eq (hlength : (encode chars).length + 1 = 2 ^ 31) :
    ¬ RoundTrips chars := by
  intro htrips
  rcases htrips.asUtf8 exhausted fullArena (fun _ => 0) with h | ⟨rest, h⟩ <;>
    rw [asUtf8InArena_overrun hlength] at h <;> cases h

/-- The whole round trip is right just where an `int` can count the encoding and its
terminating zero. -/
theorem roundTrips_iff (chars : List UInt16) :
    RoundTrips chars ↔ (encode chars).length + 1 < 2 ^ 31 := by
  refine ⟨fun htrips => ?_, roundTrips_of_lt⟩
  have hlt := toInt_utf8LengthInt_iff.mp htrips.utf8Length
  by_contra hge
  exact not_roundTrips_of_eq (by omega) htrips

/-- `2³¹ - 1` characters of one byte each: the encoded length is an `int`. -/
theorem not_roundTrips_ascii :
    (encode (List.replicate (2 ^ 31 - 1) (0x61 : UInt16))).length = 2 ^ 31 - 1 ∧
      ¬ RoundTrips (List.replicate (2 ^ 31 - 1) 0x61) := by
  have hlength : (encode (List.replicate (2 ^ 31 - 1) (0x61 : UInt16))).length = 2 ^ 31 - 1 :=
    length_encode_replicate _ _
  exact ⟨hlength, not_roundTrips_of_eq (by rw [hlength]; decide)⟩

end UNICODE

end HotSpot
