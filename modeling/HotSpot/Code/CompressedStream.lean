import Mathlib.Algebra.Group.Nat.Defs
import Mathlib.Data.List.Basic
import Mathlib.Tactic.Common
import HotSpot.Lib.BiasedDigits

/-! # The compressed stream of debugging information

`compressedStream.hpp` and `compressedStream.cpp`: the writer that files out
basic types byte by byte into a growing buffer, and the reader that files them
in again. Integers are coded in UNSIGNED5, a biased base-64 code of one to five
bytes. An `assert` of the source, a store outside the allocated buffer, and a
growth to more bytes than an `int` can count, is an error of the model.
-/

namespace HotSpot.CompressedStream

/-- `u_char` -/
abbrev UChar := BitVec 8

/-- `lg_H`: payload bits of a high code. -/
def lgH : Nat := 6

/-- `H`: number of high codes. -/
def H : Nat := 1 <<< lgH

/-- `L`: number of low codes. -/
def L : Nat := (1 <<< 8) - H

/-- `MAX_i`: bytes are numbered in `(0..4)`, at most five bytes. -/
def maxI : Nat := 4

def encodeSign (value : BitVec 32) : BitVec 32 :=
  (value <<< 1) ^^^ value.sshiftRight 31

def decodeSign (value : BitVec 32) : BitVec 32 :=
  (value >>> 1) ^^^ -(value &&& 1)

def reverseInt (i : BitVec 32) : BitVec 32 :=
  let i := (i &&& 0x55555555) <<< 1 ||| (i >>> 1) &&& 0x55555555
  let i := (i &&& 0x33333333) <<< 2 ||| (i >>> 2) &&& 0x33333333
  let i := (i &&& 0x0f0f0f0f) <<< 4 ||| (i >>> 4) &&& 0x0f0f0f0f
  (i <<< 24) ||| ((i &&& 0xff00) <<< 8) ||| ((i >>> 8) &&& 0xff00) ||| (i >>> 24)

/-- `high`, `low` and `jlong_from` of `globalDefinitions.hpp`. -/
def high (value : BitVec 64) : BitVec 32 := value.extractLsb' 32 32

def low (value : BitVec 64) : BitVec 32 := value.extractLsb' 0 32

def jlongFrom (h l : BitVec 32) : BitVec 64 := h ++ l

/-! ## Reading -/

/-- A `CompressedReadStream`: a buffer and the position of the next byte. -/
structure ReadStream where
  buffer : List UChar
  position : Nat

namespace ReadStream

/-- Reading past the end of the buffer has no value. -/
def read (s : ReadStream) : Option (UChar × ReadStream) :=
  s.buffer[s.position]?.map fun b => (b, { s with position := s.position + 1 })

/-- The loop of `read_int_mb` at byte `i` of the code, with `k = MAX_i - i`. -/
def readIntMbLoop (buffer : List UChar) : Nat → Nat → BitVec 32 → Nat →
    Option (BitVec 32 × ReadStream)
  | k, pos, sum, lgHi =>
    match buffer[pos]? with
    | none => none
    | some b =>
      let sum := sum + b.setWidth 32 <<< lgHi
      match k with
      | 0 => some (sum, ⟨buffer, pos + 1⟩)
      | k + 1 =>
        if b.toNat < L then some (sum, ⟨buffer, pos + 1⟩)
        else readIntMbLoop buffer k (pos + 1) sum (lgHi + lgH)

def readIntMb (s : ReadStream) (b0 : UChar) : Option (BitVec 32 × ReadStream) :=
  readIntMbLoop s.buffer (maxI - 1) s.position (b0.setWidth 32) lgH

def readInt (s : ReadStream) : Option (BitVec 32 × ReadStream) := do
  let (b0, s) ← s.read
  if b0.toNat < L then some (b0.setWidth 32, s) else s.readIntMb b0

def readSignedInt (s : ReadStream) : Option (BitVec 32 × ReadStream) := do
  let (value, s) ← s.readInt
  some (decodeSign value, s)

def readBool (s : ReadStream) : Option (BitVec 8 × ReadStream) := s.read

def readByte (s : ReadStream) : Option (BitVec 8 × ReadStream) := s.read

def readChar (s : ReadStream) : Option (BitVec 16 × ReadStream) := do
  let (value, s) ← s.readInt
  some (value.setWidth 16, s)

def readShort (s : ReadStream) : Option (BitVec 16 × ReadStream) := do
  let (value, s) ← s.readSignedInt
  some (value.setWidth 16, s)

/-- `read_float`, up to `jfloat_cast`. -/
def readFloat (s : ReadStream) : Option (BitVec 32 × ReadStream) := do
  let (rf, s) ← s.readInt
  some (reverseInt rf, s)

/-- `read_double`, up to `jdouble_cast`. -/
def readDouble (s : ReadStream) : Option (BitVec 64 × ReadStream) := do
  let (rh, s) ← s.readInt
  let (rl, s) ← s.readInt
  some (jlongFrom (reverseInt rh) (reverseInt rl), s)

def readLong (s : ReadStream) : Option (BitVec 64 × ReadStream) := do
  let (l, s) ← s.readSignedInt
  let (h, s) ← s.readSignedInt
  some (jlongFrom h l, s)

end ReadStream

/-! ## Writing -/

/-- A `CompressedWriteStream`. The buffer has the bytes allocated for it;
`size` is what the stream believes that number to be, an `int`. -/
structure WriteStream where
  buffer : List UChar
  position : Nat
  size : Nat

namespace WriteStream

-- The resource area hands out memory with whatever was in it: `junk n i` is
-- byte `i` of a fresh array of `n` bytes.
variable (junk : Nat → Nat → UChar)

def create (initialSize : Nat) : WriteStream :=
  ⟨(List.range initialSize).map (junk initialSize), 0, initialSize⟩

def full (s : WriteStream) : Bool := s.size ≤ s.position

def store (s : WriteStream) (b : UChar) : Except String WriteStream :=
  if s.position < s.buffer.length then
    .ok { s with buffer := s.buffer.set s.position b, position := s.position + 1 }
  else .error "buffer overrun"

/-- `_size * 2` is taken in `int`: past it the array asked for has a negative length. -/
def grow (s : WriteStream) : Except String WriteStream :=
  if s.size * 2 < 2 ^ 31 then
    .ok { s with
      buffer := s.buffer.take s.position ++
        ((List.range (s.size * 2)).map (junk (s.size * 2))).drop s.position
      size := s.size * 2 }
  else .error "int overflow"

def write (s : WriteStream) (b : UChar) : Except String WriteStream :=
  if s.full then do
    let s ← s.grow junk
    s.store b
  else s.store b

/-- The loop of `write_int_mb` at byte `i` of the code, with `k = MAX_i - i`. -/
def writeIntMbLoop : Nat → BitVec 32 → WriteStream → Except String WriteStream
  | 0, sum, s => writeLast sum s
  | k + 1, sum, s =>
    if sum.toNat < L then writeLast sum s
    else
      let sum := sum - BitVec.ofNat 32 L
      let b := BitVec.ofNat 32 L + sum % BitVec.ofNat 32 H
      match s.write junk (b.setWidth 8) with
      | .error e => .error e
      | .ok s => writeIntMbLoop k (sum >>> lgH) s
where
  /-- The remainder is either a low code or the fifth byte. -/
  writeLast (sum : BitVec 32) (s : WriteStream) : Except String WriteStream :=
    if sum = (sum.setWidth 8).setWidth 32 then s.write junk (sum.setWidth 8)
    else .error "valid byte"

def writeIntMb (s : WriteStream) (value : BitVec 32) : Except String WriteStream :=
  writeIntMbLoop junk maxI value s

def writeInt (s : WriteStream) (value : BitVec 32) : Except String WriteStream :=
  if value.toNat < L ∧ ¬ s.full then s.store (value.setWidth 8) else s.writeIntMb junk value

def writeSignedInt (s : WriteStream) (value : BitVec 32) : Except String WriteStream :=
  s.writeInt junk (encodeSign value)

def writeBool (s : WriteStream) (value : BitVec 8) : Except String WriteStream :=
  s.write junk value

def writeByte (s : WriteStream) (value : BitVec 8) : Except String WriteStream :=
  s.write junk value

def writeChar (s : WriteStream) (value : BitVec 16) : Except String WriteStream :=
  s.writeInt junk (value.setWidth 32)

def writeShort (s : WriteStream) (value : BitVec 16) : Except String WriteStream :=
  s.writeSignedInt junk (value.signExtend 32)

/-- `write_float` of the float with the bits `f`. -/
def writeFloat (s : WriteStream) (f : BitVec 32) : Except String WriteStream :=
  if f = reverseInt (reverseInt f) then s.writeInt junk (reverseInt f)
  else .error "can re-read same bits"

/-- `write_double` of the double with the bits `value`. -/
def writeDouble (s : WriteStream) (value : BitVec 64) : Except String WriteStream := do
  let h := high value
  let l := low value
  if h = reverseInt (reverseInt h) ∧ l = reverseInt (reverseInt l) then
    let s ← s.writeInt junk (reverseInt h)
    s.writeInt junk (reverseInt l)
  else .error "can re-read same bits"

def writeLong (s : WriteStream) (value : BitVec 64) : Except String WriteStream := do
  let s ← s.writeSignedInt junk (low value)
  s.writeSignedInt junk (high value)

end WriteStream

/-! ## Typed items -/

/-- The types a stream can hold. -/
inductive Kind where
  | bool | byte | char | short | int | signedInt | long | float | double
  deriving DecidableEq, Repr

/-- A value together with the type it is written as; floating-point values are
their bit patterns. -/
inductive Item where
  | bool (value : BitVec 8)
  | byte (value : BitVec 8)
  | char (value : BitVec 16)
  | short (value : BitVec 16)
  | int (value : BitVec 32)
  | signedInt (value : BitVec 32)
  | long (value : BitVec 64)
  | float (bits : BitVec 32)
  | double (bits : BitVec 64)
  deriving DecidableEq, Repr

def Item.kind : Item → Kind
  | .bool _ => .bool
  | .byte _ => .byte
  | .char _ => .char
  | .short _ => .short
  | .int _ => .int
  | .signedInt _ => .signedInt
  | .long _ => .long
  | .float _ => .float
  | .double _ => .double

def WriteStream.writeItem (junk : Nat → Nat → UChar) (s : WriteStream) :
    Item → Except String WriteStream
  | .bool value => s.writeBool junk value
  | .byte value => s.writeByte junk value
  | .char value => s.writeChar junk value
  | .short value => s.writeShort junk value
  | .int value => s.writeInt junk value
  | .signedInt value => s.writeSignedInt junk value
  | .long value => s.writeLong junk value
  | .float bits => s.writeFloat junk bits
  | .double bits => s.writeDouble junk bits

def ReadStream.readItem (s : ReadStream) : Kind → Option (Item × ReadStream)
  | .bool => s.readBool.map (Prod.map .bool id)
  | .byte => s.readByte.map (Prod.map .byte id)
  | .char => s.readChar.map (Prod.map .char id)
  | .short => s.readShort.map (Prod.map .short id)
  | .int => s.readInt.map (Prod.map .int id)
  | .signedInt => s.readSignedInt.map (Prod.map .signedInt id)
  | .long => s.readLong.map (Prod.map .long id)
  | .float => s.readFloat.map (Prod.map .float id)
  | .double => s.readDouble.map (Prod.map .double id)

/-- Write the items in order; the result lists the position after each. -/
def WriteStream.writeAll (junk : Nat → Nat → UChar) :
    WriteStream → List Item → Except String (WriteStream × List Nat)
  | s, [] => .ok (s, [])
  | s, item :: items =>
    match s.writeItem junk item with
    | .error e => .error e
    | .ok next =>
      match next.writeAll junk items with
      | .error e => .error e
      | .ok (last, positions) => .ok (last, next.position :: positions)

/-- Read items of the given types in order, with the position after each. -/
def ReadStream.readAll : ReadStream → List Kind → Option (List (Item × Nat))
  | _, [] => some []
  | s, kind :: kinds =>
    match s.readItem kind with
    | none => none
    | some (item, next) => (next.readAll kinds).map ((item, next.position) :: ·)

end HotSpot.CompressedStream
