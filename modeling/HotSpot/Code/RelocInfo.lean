import Mathlib.Algebra.Group.Nat.Defs
import Mathlib.Data.Nat.Bitwise
import Mathlib.Data.List.Basic

/-! # Relocation records

`relocInfo`, `CodeSection::relocate` and `RelocIterator` of `relocInfo.hpp` and
`codeBuffer.cpp`. A record is a halfword with a type, a format and an offset from the
record before it; data stands before it, behind a prefix, or inside the prefix. An address
is a byte offset in the section, of which a `csize_t` is the size. The records stand in a
buffer for which room is made ahead of each; a call that writes behind its limit is `none`.
-/

namespace HotSpot

/-- `relocInfo::relocType` -/
inductive RelocType where
  | none | oop | virtualCall | optVirtualCall | staticCall | staticStub | runtimeCall
  | externalWord | internalWord | sectionWord | poll | pollReturn | breakpoint
  | yetUnused | yetUnused2 | dataPrefixTag
  deriving DecidableEq, Repr

namespace RelocType

def code : RelocType → Nat
  | .none => 0
  | .oop => 1
  | .virtualCall => 2
  | .optVirtualCall => 3
  | .staticCall => 4
  | .staticStub => 5
  | .runtimeCall => 6
  | .externalWord => 7
  | .internalWord => 8
  | .sectionWord => 9
  | .poll => 10
  | .pollReturn => 11
  | .breakpoint => 12
  | .yetUnused => 13
  | .yetUnused2 => 14
  | .dataPrefixTag => 15

def ofCode : Nat → RelocType
  | 0 => .none
  | 1 => .oop
  | 2 => .virtualCall
  | 3 => .optVirtualCall
  | 4 => .staticCall
  | 5 => .staticStub
  | 6 => .runtimeCall
  | 7 => .externalWord
  | 8 => .internalWord
  | 9 => .sectionWord
  | 10 => .poll
  | 11 => .pollReturn
  | 12 => .breakpoint
  | 13 => .yetUnused
  | 14 => .yetUnused2
  | _ => .dataPrefixTag

end RelocType

/-- The machine-dependent parts of `relocInfo`. -/
structure RelocPlatform where
  offsetUnit : Nat
  formatWidth : Nat
  bytesPerWord : Nat
  offsetUnit_pos : 0 < offsetUnit
  formatWidth_le : formatWidth ≤ 2

/-- The unsigned short of a `relocInfo`, or a short of its data. -/
abbrev Halfword := BitVec 16

namespace RelocInfo

/-! ## The halfword -/

def nontypeWidth : Nat := 12
def datalenWidth : Nat := nontypeWidth - 1
def datalenTag : Nat := 1 <<< datalenWidth
def datalenLimit : Nat := 1 <<< datalenWidth
def datalenMask : Nat := (1 <<< datalenWidth) - 1

variable (pd : RelocPlatform)

def offsetWidth : Nat := nontypeWidth - pd.formatWidth
def offsetMask : Nat := (1 <<< offsetWidth pd) - 1
def formatMask : Nat := (1 <<< pd.formatWidth) - 1
def offsetLimit : Nat := (1 <<< offsetWidth pd) * pd.offsetUnit

/-- A conservative estimate of the length of a record with its data, in halfwords. -/
def lengthLimit : Nat := 1 + 1 + 3 * pd.bytesPerWord / 2 + 1

/-- The constructor with `RAW_BITS`. -/
def ofRawBits (type : RelocType) (bits : Nat) : Halfword :=
  BitVec.ofNat 16 ((type.code <<< nontypeWidth) + bits)

def make (type : RelocType) (offset format : Nat) : Halfword :=
  ofRawBits type (offset / pd.offsetUnit + (format <<< offsetWidth pd))

def type (ri : Halfword) : RelocType := .ofCode (ri.toNat >>> nontypeWidth)

def format (ri : Halfword) : Nat :=
  if formatMask pd = 0 then 0 else formatMask pd &&& (ri.toNat >>> offsetWidth pd)

def addrOffset (ri : Halfword) : Nat := (ri.toNat &&& offsetMask pd) * pd.offsetUnit

def isPrefix (ri : Halfword) : Bool := type ri = .dataPrefixTag

def isDatalen (ri : Halfword) : Bool := ri.toNat &&& datalenTag ≠ 0

def datalen (ri : Halfword) : Nat := ri.toNat &&& datalenMask

def immediate (ri : Halfword) : Nat := ri.toNat &&& datalenMask

def setType (ri : Halfword) (t : RelocType) : Halfword :=
  make pd t (addrOffset pd ri) (format pd ri)

def fillerRelocInfo : Halfword := make pd .none (offsetLimit pd - pd.offsetUnit) 0

def prefixRelocInfo (datalen : Nat) : Halfword :=
  ofRawBits .dataPrefixTag (datalenTag ||| datalen)

def fitsIntoImmediate (data0 : Halfword) : Bool :=
  decide (0 ≤ data0.toInt) && decide (data0.toInt < datalenLimit)

def immediateRelocInfo (data0 : Halfword) : Halfword := ofRawBits .dataPrefixTag data0.toNat

/-! ## Data -/

def data0FromInt (x : BitVec 32) : Halfword := (x.sshiftRight 16).setWidth 16

def data1FromInt (x : BitVec 32) : Halfword := x.setWidth 16

def jintFromData (data0 data1 : Halfword) : BitVec 32 :=
  (data0.signExtend 32 <<< 16) + data1.setWidth 32

def shortDataAt (n : Nat) (data : List Halfword) : BitVec 32 :=
  match data[n]? with
  | some d => d.signExtend 32
  | none => 0

def jintDataAt (n : Nat) (data : List Halfword) : BitVec 32 :=
  match data[n]?, data[n + 1]? with
  | some d0, some d1 => jintFromData d0 d1
  | _, _ => shortDataAt n data

/-- The prefix of data that is not empty, with the data unless it is inside. -/
def finishPrefix (data : List Halfword) : List Halfword :=
  match data with
  | [d] => if fitsIntoImmediate d then [immediateRelocInfo d] else [prefixRelocInfo 1, d]
  | data => prefixRelocInfo data.length :: data

/-- `initialize`: the record moves behind its data. -/
def initializeRecord (suffix : Halfword) (data : List Halfword) : List Halfword :=
  if data = [] then [suffix] else finishPrefix data ++ [suffix]

end RelocInfo

namespace Relocation

open RelocInfo

def isShort (x : BitVec 32) : Bool := x = (x.setWidth 16).signExtend 32

def addShort (x : BitVec 32) : List Halfword := [x.setWidth 16]

def addJint (x : BitVec 32) : List Halfword := [data0FromInt x, data1FromInt x]

/-- A variable-width int. -/
def addVarInt (x : BitVec 32) : List Halfword := if isShort x then addShort x else addJint x

/-- Format is one of:  [] [x] [Xx] -/
def pack1Int (x0 : BitVec 32) : List Halfword := if x0 ≠ 0 then addVarInt x0 else []

def unpack1Int (data : List Halfword) : BitVec 32 := jintDataAt 0 data

/-- Format is one of:  [] [x y?] [Xx Y?y] -/
def pack2Ints (x0 x1 : BitVec 32) : List Halfword :=
  if x0 = 0 ∧ x1 = 0 then [] -- no halfwords needed to store zeroes
  else if isShort x0 ∧ isShort x1 then
    addShort x0 ++ if x1 ≠ 0 then addShort x1 else []
  else addJint x0 ++ addVarInt x1

def unpack2Ints (data : List Halfword) : BitVec 32 × BitVec 32 :=
  if data.length ≤ 2 then (shortDataAt 0 data, shortDataAt 1 data)
  else (jintDataAt 0 data, jintDataAt 2 data)

end Relocation

/-- What a relocation packs with `pack_data_to`. -/
inductive RelocData where
  | none
  | oneInt (x0 : BitVec 32)
  | twoInts (x0 x1 : BitVec 32)
  deriving DecidableEq, Repr

namespace RelocData

def pack : RelocData → List Halfword
  | .none => []
  | .oneInt x0 => Relocation.pack1Int x0
  | .twoInts x0 x1 => Relocation.pack2Ints x0 x1

/-- `unpack_data` of the same relocation. -/
def unpack (data : List Halfword) : RelocData → RelocData
  | .none => .none
  | .oneInt _ => .oneInt (Relocation.unpack1Int data)
  | .twoInts _ _ =>
    let (x0, x1) := Relocation.unpack2Ints data
    .twoInts x0 x1

end RelocData

/-! ## Writing -/

/-- The arguments of `CodeSection::relocate`. -/
structure RelocCall where
  addr : Nat
  type : RelocType
  format : Nat
  data : RelocData
  addr_lt : addr < 2 ^ 31
  deriving DecidableEq, Repr

structure CodeSection where
  locsPoint : Nat
  locs : List Halfword
  /-- `locs_capacity()`; none in a section to which no buffer was given. -/
  locsCapacity : Option Int
  deriving DecidableEq, Repr

namespace CodeSection

open RelocInfo

variable (pd : RelocPlatform)

/-- The loop for a giant offset; what is left of it. Every round takes off at least one. -/
def emitFillers : Nat → List Halfword → Nat → List Halfword × Nat
  | 0, locs, offset => (locs, offset)
  | fuel + 1, locs, offset =>
    if offsetLimit pd ≤ offset then
      emitFillers fuel (locs ++ [fillerRelocInfo pd])
        (offset - addrOffset pd (fillerRelocInfo pd))
    else (locs, offset)

/-- `expand_locs` where there is a buffer: the capacity of the next one, an `int`. -/
def expandLocs (capacity newCapacity : Int) : Int :=
  let doubled := (capacity * 2).bmod (2 ^ 32)
  if newCapacity < doubled then doubled else newCapacity

/-- The capacity after room was made for the record of one call. -/
def reserveLocs (count : Nat) (capacity : Int) (offset : Nat) : Int :=
  let req := lengthLimit pd
  if capacity ≤ ↑(count + req) ∨ offsetLimit pd ≤ offset then
    let req := req + offset / offsetLimit pd
    if capacity ≤ ↑(count + req) then expandLocs capacity (Int.bmod ↑(count + req) (2 ^ 32))
    else capacity
  else capacity

def relocate (cs : CodeSection) (call : RelocCall) : Option CodeSection :=
  if call.type = .none then some cs
  else
    match cs.locsCapacity with
    | none => some cs
    | some capacity =>
      let offset := call.addr - cs.locsPoint
      let capacity := reserveLocs pd cs.locs.length capacity offset
      let (locs, offset) := emitFillers pd offset cs.locs offset
      let locs :=
        locs ++ initializeRecord (make pd call.type offset call.format) call.data.pack
      -- no write looks at the limit, so that an overrun shows in where the last one ends
      if locs.length ≤ capacity then some ⟨call.addr, locs, some capacity⟩ else none

def relocateAll (cs : CodeSection) (calls : List RelocCall) : Option CodeSection :=
  calls.foldlM (relocate pd) cs

end CodeSection

/-! ## Reading -/

/-- What the iterator shows of the current record. -/
structure RelocRecord where
  /-- The index of `_current`. -/
  current : Nat
  addr : Nat
  type : RelocType
  format : Nat
  data : List Halfword
  deriving DecidableEq, Repr

namespace RelocIterator

open RelocInfo

variable (pd : RelocPlatform) (locs : List Halfword)

/-- `advance_over_prefix`: the data and the index of the record behind it. -/
def advanceOverPrefix (current : Nat) (ri : Halfword) : List Halfword × Nat :=
  if isDatalen ri then
    ((locs.drop (current + 1)).take (datalen ri), current + datalen ri + 1)
  else ([BitVec.ofNat 16 (immediate ri)], current + 1)

/-- What stands at an index: the data and the index of the record itself. -/
def atIndex (current : Nat) (ri : Halfword) : List Halfword × Nat :=
  if isPrefix ri then advanceOverPrefix locs current ri else ([], current)

/-- The records from an index and an address on; none if the end is overrun. -/
def records : Nat → Nat → Nat → Option (List RelocRecord)
  | 0, current, _ => if current = locs.length then some [] else none
  | fuel + 1, current, addr =>
    if current = locs.length then some []
    else do
      let ri ← locs[current]?
      let (data, current) := atIndex locs current ri
      let ri ← locs[current]?
      let addr := addr + addrOffset pd ri
      let rest ← records fuel (current + 1) addr
      return ⟨current, addr, type ri, format pd ri, data⟩ :: rest

/-- `while (iter.next())` -/
def iterate (addr : Nat) : Option (List RelocRecord) := records pd locs locs.length 0 addr

/-- `iter.current()->set_type(type)` at a record. -/
def setTypeAt (r : RelocRecord) (t : RelocType) : List Halfword :=
  match locs[r.current]? with
  | some ri => locs.set r.current (setType pd ri t)
  | none => locs

/-- Calls of `set_type` on the record that is `index`-th in the iteration; `remove` is the
one with type none. -/
def setTypes (addr : Nat) (edits : List (Nat × RelocType)) : Option (List Halfword) :=
  edits.foldlM (fun locs (index, t) => do
    let shown ← iterate pd locs addr
    let r ← shown[index]?
    return setTypeAt pd locs r t) locs

end RelocIterator

end HotSpot
