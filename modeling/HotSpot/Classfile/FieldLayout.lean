import Mathlib.Data.List.GetD
import Mathlib.Tactic.Common

/-! # Field layout

The computation of field offsets in `ClassFileParser::parseClassFile`: the offsets where each
type of field begins, with the gap before the first double filled by smaller fields, the
offsets of the fields in their order of declaration, and the oop maps. The classes with fake
fields are left out. Offsets and counts are `Nat`, where the source has `int`: those of an instance
of 2 ^ 31 bytes would wrap.
-/

namespace HotSpot.FieldLayout

/-- The sizes of the platform, in bytes. -/
structure Platform where
  wordSize : Nat
  heapOopSize : Nat
  /-- `instanceOopDesc::base_offset_in_bytes()` -/
  baseOffsetInBytes : Nat
  wordSize_eq : wordSize = 4 ∨ wordSize = 8
  heapOopSize_eq : heapOopSize = 4 ∨ heapOopSize = 8
  heapOopSize_le : heapOopSize ≤ wordSize
  base_oop : baseOffsetInBytes % heapOopSize = 0
  base_int : baseOffsetInBytes % 4 = 0

def bytesPerShort : Nat := 2

def bytesPerInt : Nat := 4

def bytesPerLong : Nat := 8

/-- `align_size_up`; alignments are powers of two. -/
def alignSizeUp (size alignment : Nat) : Nat := (size + (alignment - 1)) / alignment * alignment

/-- `FieldAllocationType` -/
inductive FieldAllocationType where
  | staticOop
  | staticByte
  | staticShort
  | staticWord
  | staticDouble
  | staticAlignedDouble
  | nonstaticOop
  | nonstaticByte
  | nonstaticShort
  | nonstaticWord
  | nonstaticDouble
  | nonstaticAlignedDouble
  deriving DecidableEq, Repr

/-- `FieldsAllocationStyle`, 0 and 1: oops before all other fields or after them. -/
inductive FieldsAllocationStyle where
  | oopsFirst
  | oopsLast
  deriving DecidableEq, Repr

/-- The numbers of nonstatic fields of each type. -/
structure FieldAllocationCount where
  oop : Nat
  byte : Nat
  short : Nat
  word : Nat
  double : Nat

open FieldAllocationType in
/-- What `parse_fields` counts. -/
def fieldAllocationCount (types : List FieldAllocationType) : FieldAllocationCount where
  oop := types.countP (· = nonstaticOop)
  byte := types.countP (· = nonstaticByte)
  short := types.countP (· = nonstaticShort)
  word := types.countP (· = nonstaticWord)
  double := types.countP fun t => t = nonstaticDouble ∨ t = nonstaticAlignedDouble

/-! ## Offsets of the types -/

/-- Where fields of a type go: the first `spaceCount` of them from `spaceOffset` on, in the gap
before the first double, the others from `next` on. -/
structure Slot where
  spaceCount : Nat
  spaceOffset : Nat
  next : Nat

/-- `offset` and `length` of what is left of the gap. -/
structure Gap where
  offset : Nat
  length : Nat

/-- The outcome of a loop that fills the gap. -/
structure Filled where
  count : Nat
  spaceCount : Nat
  gap : Gap

/-- The loops over the gap: as long as a field of the size fits and there is one. The loop for
bytes does not go on with the offset. -/
def fillGap (size advance : Nat) : Nat → Nat → Gap → Filled
  | 0, spaceCount, gap => ⟨0, spaceCount, gap⟩
  | count + 1, spaceCount, gap =>
    if size ≤ gap.length then
      fillGap size advance count (spaceCount + 1) ⟨gap.offset + advance, gap.length - size⟩
    else ⟨count + 1, spaceCount, gap⟩

/-- The fields that go into the gap: numbers and offsets. -/
structure Spaces where
  oopCount : Nat := 0
  wordCount : Nat := 0
  shortCount : Nat := 0
  byteCount : Nat := 0
  oopOffset : Nat := 0
  wordOffset : Nat := 0
  shortOffset : Nat := 0
  byteOffset : Nat := 0

variable (platform : Platform)

/-- Allocate available fields into the gap before double field. -/
def allocateGap (style : FieldsAllocationStyle) (fac : FieldAllocationCount) (gap : Gap) :
    FieldAllocationCount × Spaces :=
  let wordCount := if 0 < fac.word then 1 else 0 -- Only one will fit
  let afterWord : Gap :=
    if 0 < fac.word then ⟨gap.offset + bytesPerInt, gap.length - bytesPerInt⟩ else gap
  let short := fillGap bytesPerShort bytesPerShort fac.short 0 afterWord
  let byte := fillGap 1 0 fac.byte 0 short.gap
  -- Allocate oop field in the gap if there are no other fields for that.
  let oopCount :=
    if platform.heapOopSize ≤ byte.gap.length ∧ 0 < fac.oop ∧ style ≠ .oopsFirst then 1 else 0
  ({ fac with
      oop := fac.oop - oopCount, word := fac.word - wordCount, short := short.count,
      byte := byte.count },
    { oopCount := oopCount, wordCount := wordCount, shortCount := short.spaceCount,
      byteCount := byte.spaceCount, oopOffset := byte.gap.offset, wordOffset := gap.offset,
      shortOffset := afterWord.offset, byteOffset := short.gap.offset })

/-- The offset of the first double before it is aligned. -/
def doubleOffset (style : FieldsAllocationStyle) (fac : FieldAllocationCount) (first : Nat) : Nat :=
  match style with
  | .oopsFirst => first + fac.oop * platform.heapOopSize
  | .oopsLast => first

/-- The length of the gap, when there is one and it is to be filled. -/
def gapLength (style : FieldsAllocationStyle) (compactFields : Bool) (fac : FieldAllocationCount)
    (first : Nat) : Option Nat :=
  let offset := doubleOffset platform style fac first
  let aligned := alignSizeUp offset bytesPerLong
  if 0 < fac.double ∧ compactFields ∧ offset ≠ aligned then some (aligned - offset) else none

/-- The offsets where the types begin, and `notaligned_offset`, the end of the fields. -/
structure Plan where
  oop : Slot
  byte : Slot
  short : Slot
  word : Slot
  nextDouble : Nat
  notalignedOffset : Nat

/-- The offsets after the doubles; `rest` are the fields that are not in the gap. -/
def arrange (style : FieldsAllocationStyle) (rest : FieldAllocationCount) (spaces : Spaces)
    (first nextDouble : Nat) : Plan :=
  let nextWord := nextDouble + rest.double * bytesPerLong
  let nextShort := nextWord + rest.word * bytesPerInt
  let nextByte := nextShort + rest.short * bytesPerShort
  let nextOop :=
    match style with
    | .oopsFirst => first
    | .oopsLast =>
      if 0 < rest.oop then alignSizeUp (nextByte + rest.byte) platform.heapOopSize
      else nextByte + rest.byte
  { oop := ⟨spaces.oopCount, spaces.oopOffset, nextOop⟩
    byte := ⟨spaces.byteCount, spaces.byteOffset, nextByte⟩
    short := ⟨spaces.shortCount, spaces.shortOffset, nextShort⟩
    word := ⟨spaces.wordCount, spaces.wordOffset, nextWord⟩
    nextDouble := nextDouble
    notalignedOffset :=
      match style with
      | .oopsFirst => nextByte + rest.byte
      | .oopsLast => nextOop + rest.oop * platform.heapOopSize }

def plan (style : FieldsAllocationStyle) (compactFields : Bool) (fac : FieldAllocationCount)
    (first : Nat) : Plan :=
  let offset := doubleOffset platform style fac first
  let nextDouble := if 0 < fac.double then alignSizeUp offset bytesPerLong else offset
  match gapLength platform style compactFields fac first with
  | some length =>
    let filled := allocateGap platform style fac ⟨offset, length⟩
    arrange platform style filled.1 filled.2 first nextDouble
  | none => arrange platform style fac {} first nextDouble

/-! ## Offsets of the fields -/

structure OopMapBlock where
  /-- Byte offset of the first oop mapped by this block. -/
  offset : Nat
  /-- Number of oops in this block. -/
  count : Nat
  deriving DecidableEq, Repr

/-- The cursors of the static fields. -/
structure StaticCursors where
  nextOop : Nat
  nextByte : Nat
  nextShort : Nat
  nextWord : Nat
  nextDouble : Nat

/-- What the second pass carries from field to field. The oop maps are in
`nonstatic_oop_offsets` and `nonstatic_oop_counts`, the last one first here. -/
structure Cursors where
  statics : StaticCursors
  oop : Slot
  byte : Slot
  short : Slot
  word : Slot
  nextDouble : Nat
  oopMaps : List OopMapBlock
  firstNonstaticOopOffset : Nat

/-- The offset for the next field of a type. -/
def Slot.offset (slot : Slot) : Nat :=
  if 0 < slot.spaceCount then slot.spaceOffset else slot.next

def Slot.advance (size : Nat) (slot : Slot) : Slot :=
  if 0 < slot.spaceCount then
    { slot with spaceOffset := slot.spaceOffset + size, spaceCount := slot.spaceCount - 1 }
  else { slot with next := slot.next + size }

/-- Create new oop map -/
def Cursors.createOopMap (cursors : Cursors) (realOffset : Nat) : Cursors :=
  { cursors with
    oopMaps := ⟨realOffset, 1⟩ :: cursors.oopMaps
    firstNonstaticOopOffset :=
      if cursors.firstNonstaticOopOffset = 0 then realOffset -- Undefined
      else cursors.firstNonstaticOopOffset }

/-- Update oop maps -/
def Cursors.addOop (cursors : Cursors) (realOffset : Nat) : Cursors :=
  match cursors.oopMaps with
  | last :: rest =>
    if last.offset + last.count * platform.heapOopSize = realOffset then
      -- Extend current oop map
      { cursors with oopMaps := { last with count := last.count + 1 } :: rest }
    else cursors.createOopMap realOffset
  | [] => cursors.createOopMap realOffset

/-- The offset of a field. -/
def realOffset (cursors : Cursors) : FieldAllocationType → Nat
  | .staticOop => cursors.statics.nextOop
  | .staticByte => cursors.statics.nextByte
  | .staticShort => cursors.statics.nextShort
  | .staticWord => cursors.statics.nextWord
  | .staticDouble => cursors.statics.nextDouble
  | .staticAlignedDouble => cursors.statics.nextDouble
  | .nonstaticOop => cursors.oop.offset
  | .nonstaticByte => cursors.byte.offset
  | .nonstaticShort => cursors.short.offset
  | .nonstaticWord => cursors.word.offset
  | .nonstaticDouble => cursors.nextDouble
  | .nonstaticAlignedDouble => cursors.nextDouble

/-- The cursors after a field. -/
def nextCursors (c : Cursors) : FieldAllocationType → Cursors
  | .staticOop =>
    { c with statics := { c.statics with nextOop := c.statics.nextOop + platform.heapOopSize } }
  | .staticByte => { c with statics := { c.statics with nextByte := c.statics.nextByte + 1 } }
  | .staticShort =>
    { c with statics := { c.statics with nextShort := c.statics.nextShort + bytesPerShort } }
  | .staticWord =>
    { c with statics := { c.statics with nextWord := c.statics.nextWord + bytesPerInt } }
  | .staticDouble =>
    { c with statics := { c.statics with nextDouble := c.statics.nextDouble + bytesPerLong } }
  | .staticAlignedDouble =>
    { c with statics := { c.statics with nextDouble := c.statics.nextDouble + bytesPerLong } }
  | .nonstaticOop =>
    { c with oop := c.oop.advance platform.heapOopSize }.addOop platform c.oop.offset
  | .nonstaticByte => { c with byte := c.byte.advance 1 }
  | .nonstaticShort => { c with short := c.short.advance bytesPerShort }
  | .nonstaticWord => { c with word := c.word.advance bytesPerInt }
  | .nonstaticDouble => { c with nextDouble := c.nextDouble + bytesPerLong }
  | .nonstaticAlignedDouble => { c with nextDouble := c.nextDouble + bytesPerLong }

/-- Iterate over fields again and compute correct offsets. -/
def assignOffsets : List FieldAllocationType → Cursors → List Nat × Cursors
  | [], c => ([], c)
  | t :: types, c =>
    let rest := assignOffsets types (nextCursors platform c t)
    (realOffset c t :: rest.1, rest.2)

/-! ## Classes -/

/-- A class whose fields are laid out. -/
structure InstanceKlass where
  /-- Number of heapOopSize words used by nonstatic fields, those of the superclasses included. -/
  nonstaticFieldSize : Nat
  /-- In words. -/
  instanceSize : Nat
  nonstaticOopMapCount : Nat
  oopMaps : List OopMapBlock
  /-- The fields that the class declares, with their offsets. -/
  fields : List (FieldAllocationType × Nat)
  /-- The offsets of the oop fields of the class and of its superclasses. -/
  oopOffsets : List Nat

def computeOopMapCount (super : Option InstanceKlass)
    (nonstaticOopMapCount firstNonstaticOopOffset : Nat) : Nat :=
  let mapCount := (super.map (·.nonstaticOopMapCount)).getD 0
  if 0 < nonstaticOopMapCount then
    -- We have oops to add to map
    if mapCount = 0 then nonstaticOopMapCount
    else
      -- Check whether we should add a new map block or whether the last one can
      -- be extended
      let lastMap := ((super.map (·.oopMaps)).getD []).getD (mapCount - 1) ⟨0, 0⟩
      if lastMap.offset + lastMap.count * platform.heapOopSize = firstNonstaticOopOffset then
        mapCount + (nonstaticOopMapCount - 1)
      else mapCount + nonstaticOopMapCount
  else mapCount

/-- Adds to the count of the last block. -/
def extendLast (maps : List OopMapBlock) (count : Nat) : List OopMapBlock :=
  match maps.getLast? with
  | some lastMap => maps.dropLast ++ [{ lastMap with count := lastMap.count + count }]
  | none => maps

/-- `fill_oop_maps`: the maps of the superclass and then the own ones, in a class for which
`mapCount` blocks are allocated. -/
def fillOopMaps (super : Option InstanceKlass) (mapCount : Nat) (own : List OopMapBlock) :
    List OopMapBlock :=
  let superCount := (super.map (·.nonstaticOopMapCount)).getD 0
  -- Copy maps from superclass
  let superMaps := ((super.map (·.oopMaps)).getD []).take superCount
  match own with
  | [] => superMaps
  | first :: rest =>
    if mapCount < superCount + own.length then
      -- Extend the last oop map copied from the superclass instead of creating new one.
      extendLast superMaps first.count ++ rest
    else superMaps ++ own

/-- The cursors before the second pass. -/
def startCursors (statics : StaticCursors) (p : Plan) : Cursors where
  statics := statics
  oop := p.oop
  byte := p.byte
  short := p.short
  word := p.word
  nextDouble := p.nextDouble
  oopMaps := []
  firstNonstaticOopOffset := 0 -- will be set for first oop field

/-- `first_nonstatic_field_offset` -/
def firstNonstaticFieldOffset (super : Option InstanceKlass) : Nat :=
  platform.baseOffsetInBytes +
    (super.map (·.nonstaticFieldSize)).getD 0 * platform.heapOopSize

/-- `align_object_size` -/
def alignObjectSize (size : Nat) : Nat := alignSizeUp size (bytesPerLong / platform.wordSize)

/-- The layout of a class with fields of the types given, in their order of declaration. -/
def parseClassFile (style : FieldsAllocationStyle) (compactFields : Bool)
    (statics : StaticCursors) (super : Option InstanceKlass) (types : List FieldAllocationType) :
    InstanceKlass :=
  let first := firstNonstaticFieldOffset platform super
  let p := plan platform style compactFields (fieldAllocationCount types) first
  let nextType := alignSizeUp p.notalignedOffset platform.heapOopSize
  let assigned := assignOffsets platform types (startCursors statics p)
  let own := assigned.2.oopMaps.reverse
  let mapCount := computeOopMapCount platform super own.length assigned.2.firstNonstaticOopOffset
  let fields := types.zip assigned.1
  { nonstaticFieldSize :=
      (super.map (·.nonstaticFieldSize)).getD 0 + (nextType - first) / platform.heapOopSize
    instanceSize := alignObjectSize platform
      (alignSizeUp p.notalignedOffset platform.wordSize / platform.wordSize)
    nonstaticOopMapCount := mapCount
    oopMaps := fillOopMaps super mapCount own
    fields := fields
    oopOffsets := (super.map (·.oopOffsets)).getD [] ++
      (fields.filter (·.1 = .nonstaticOop)).map (·.2) }

end HotSpot.FieldLayout

/-! ## Oop maps

The blocks that the second pass collects cover the offsets of the oop fields, and
`fill_oop_maps` merges them with the blocks of the superclass.
-/

namespace HotSpot.FieldLayout

variable {platform : Platform}

/-- The offsets in the blocks. -/
def Covered (platform : Platform) (maps : List OopMapBlock) (offset : Nat) : Prop :=
  ∃ block ∈ maps, ∃ k < block.count, offset = block.offset + k * platform.heapOopSize

theorem not_covered_nil (x : Nat) : ¬ Covered platform [] x := by
  rintro ⟨block, hmem, -⟩
  cases hmem

theorem covered_append (maps maps' : List OopMapBlock) (x : Nat) :
    Covered platform (maps ++ maps') x ↔ Covered platform maps x ∨ Covered platform maps' x := by
  simp only [Covered, List.mem_append, or_and_right, exists_or]

theorem covered_cons (block : OopMapBlock) (maps : List OopMapBlock) (x : Nat) :
    Covered platform (block :: maps) x ↔ Covered platform [block] x ∨ Covered platform maps x :=
  covered_append [block] maps x

theorem covered_reverse (maps : List OopMapBlock) (x : Nat) :
    Covered platform maps.reverse x ↔ Covered platform maps x := by
  simp only [Covered, List.mem_reverse]

/-- A block that is followed by another one. -/
theorem covered_extend (block : OopMapBlock) (count x : Nat) :
    Covered platform [{ block with count := block.count + count }] x ↔
      Covered platform [block] x ∨
        Covered platform [⟨block.offset + block.count * platform.heapOopSize, count⟩] x := by
  simp only [Covered, List.mem_singleton, exists_eq_left]
  constructor
  · rintro ⟨k, hk, rfl⟩
    by_cases hlt : k < block.count
    · exact .inl ⟨k, hlt, rfl⟩
    · refine .inr ⟨k - block.count, by omega, ?_⟩
      rw [Nat.add_assoc, ← Nat.add_mul, show block.count + (k - block.count) = k by omega]
  · rintro (⟨k, hk, rfl⟩ | ⟨k, hk, rfl⟩)
    · exact ⟨k, by omega, rfl⟩
    · exact ⟨block.count + k, by omega, by rw [Nat.add_mul]; omega⟩

theorem covered_one (offset x : Nat) : Covered platform [⟨offset, 1⟩] x ↔ x = offset := by
  simp [Covered]

/-! ## The second pass -/

theorem covered_addOop (c : Cursors) (offset x : Nat) :
    Covered platform (c.addOop platform offset).oopMaps x ↔
      Covered platform c.oopMaps x ∨ x = offset := by
  rw [Cursors.addOop]
  split
  next last rest heq =>
    split
    next hnext =>
      rw [covered_cons, covered_extend, hnext, covered_one, heq, covered_cons last rest,
        or_right_comm]
    next =>
      rw [Cursors.createOopMap, covered_cons, covered_one, or_comm]
  next heq => rw [Cursors.createOopMap, covered_cons, covered_one, or_comm]

/-- The blocks are not empty. -/
def NonemptyBlocks (maps : List OopMapBlock) : Prop := ∀ block ∈ maps, 0 < block.count

theorem nonempty_addOop {c : Cursors} (h : NonemptyBlocks c.oopMaps) (offset : Nat) :
    NonemptyBlocks (c.addOop platform offset).oopMaps := by
  have hcreate : NonemptyBlocks (c.createOopMap offset).oopMaps := by
    intro block hmem
    rcases List.mem_cons.mp hmem with rfl | hmem
    · exact Nat.one_pos
    · exact h block hmem
  rw [Cursors.addOop]
  split
  next last rest heq =>
    split
    next =>
      intro block hmem
      rcases List.mem_cons.mp hmem with rfl | hmem
      · exact Nat.succ_pos _
      · exact h block (heq ▸ List.mem_cons_of_mem _ hmem)
    next => exact hcreate
  next => exact hcreate

/-- `first_nonstatic_oop_offset` is the offset of the first block. -/
structure FirstBlock (c : Cursors) : Prop where
  undefined : c.oopMaps = [] → c.firstNonstaticOopOffset = 0
  defined : ∀ block, c.oopMaps.getLast? = some block →
    block.offset = c.firstNonstaticOopOffset ∧ 0 < c.firstNonstaticOopOffset

theorem FirstBlock.addOop {c : Cursors} (h : FirstBlock c) {offset : Nat} (hpos : 0 < offset) :
    FirstBlock (c.addOop platform offset) := by
  rw [Cursors.addOop]
  split
  next last rest heq =>
    have hdefined := h.defined
    rw [heq] at hdefined
    split
    next =>
      refine ⟨(fun hnil => by cases hnil), ?_⟩
      intro block hlast
      cases rest with
      | nil =>
        obtain rfl := Option.some.inj hlast
        exact hdefined last rfl
      | cons b rest =>
        rw [List.getLast?_cons_cons] at hlast hdefined
        exact hdefined block hlast
    next =>
      have hlast : ∃ block, (last :: rest).getLast? = some block :=
        ⟨_, List.getLast?_eq_some_getLast (List.cons_ne_nil last rest)⟩
      obtain ⟨block, hblock⟩ := hlast
      obtain ⟨hoffset, hfirst⟩ := hdefined block hblock
      refine ⟨(fun hnil => by cases hnil), ?_⟩
      intro block' hlast
      simp only [Cursors.createOopMap, heq] at hlast ⊢
      rw [List.getLast?_cons_cons, hblock] at hlast
      obtain rfl := Option.some.inj hlast
      rw [if_neg (by omega)]
      exact ⟨hoffset, hfirst⟩
  next heq =>
    refine ⟨(fun hnil => by cases hnil), ?_⟩
    intro block hlast
    simp only [Cursors.createOopMap, heq, h.undefined heq] at hlast ⊢
    obtain rfl := Option.some.inj hlast
    exact ⟨rfl, hpos⟩

/-- The offsets of the oop fields. -/
def oopsOf (types : List FieldAllocationType) (offsets : List Nat) : List Nat :=
  ((types.zip offsets).filter (·.1 = .nonstaticOop)).map (·.2)

theorem oopsOf_cons (t : FieldAllocationType) (types : List FieldAllocationType) (x : Nat)
    (offsets : List Nat) : oopsOf (t :: types) (x :: offsets) =
      if t = .nonstaticOop then x :: oopsOf types offsets else oopsOf types offsets := by
  simp only [oopsOf, List.zip_cons_cons, List.filter_cons]
  split
  next ht => simp only [decide_eq_true_eq] at ht; rw [if_pos ht]; rfl
  next ht => simp only [decide_eq_true_eq] at ht; rw [if_neg ht]

/-- Only oop fields change the maps. -/
theorem nextCursors_oopMaps (c : Cursors) {t : FieldAllocationType} (ht : t ≠ .nonstaticOop) :
    (nextCursors platform c t).oopMaps = c.oopMaps ∧
      (nextCursors platform c t).firstNonstaticOopOffset = c.firstNonstaticOopOffset := by
  cases t with
  | nonstaticOop => exact absurd rfl ht
  | _ => exact ⟨rfl, rfl⟩

/-- What the second pass makes of the oop maps. -/
theorem assignOffsets_oopMaps (types : List FieldAllocationType) (c : Cursors)
    (hblocks : NonemptyBlocks c.oopMaps) :
    (∀ x, Covered platform (assignOffsets platform types c).2.oopMaps x ↔
      Covered platform c.oopMaps x ∨ x ∈ oopsOf types (assignOffsets platform types c).1) ∧
    NonemptyBlocks (assignOffsets platform types c).2.oopMaps ∧
    (FirstBlock c → (∀ x ∈ oopsOf types (assignOffsets platform types c).1, 0 < x) →
      FirstBlock (assignOffsets platform types c).2) := by
  induction types generalizing c with
  | nil => exact ⟨fun x => by simp [assignOffsets, oopsOf], hblocks, fun h _ => h⟩
  | cons t types ih =>
    rw [assignOffsets, oopsOf_cons]
    by_cases ht : t = .nonstaticOop
    · subst ht
      rw [if_pos rfl]
      simp only [nextCursors, realOffset]
      obtain ⟨hcovered, hnonempty, hfirst⟩ := ih
        (Cursors.addOop platform { c with oop := c.oop.advance platform.heapOopSize }
          c.oop.offset)
        (nonempty_addOop (c := { c with oop := c.oop.advance platform.heapOopSize }) hblocks _)
      refine ⟨?_, hnonempty, ?_⟩
      · intro x
        rw [hcovered, covered_addOop, List.mem_cons, or_assoc]
      · intro h hpos
        apply hfirst
        · exact FirstBlock.addOop (c := { c with oop := c.oop.advance platform.heapOopSize })
            ⟨h.undefined, h.defined⟩ (hpos _ List.mem_cons_self)
        · intro x hx
          exact hpos x (List.mem_cons_of_mem _ hx)
    · rw [if_neg ht]
      obtain ⟨hmaps, hoffset⟩ := @nextCursors_oopMaps platform c t ht
      obtain ⟨hcovered, hnonempty, hfirst⟩ := ih (nextCursors platform c t) (hmaps ▸ hblocks)
      refine ⟨?_, hnonempty, ?_⟩
      · intro x
        rw [hcovered, hmaps]
      · intro h hpos
        refine hfirst ⟨?_, ?_⟩ hpos
        · rw [hmaps, hoffset]
          exact h.undefined
        · rw [hmaps, hoffset]
          exact h.defined

/-! ## The maps of a class -/

theorem covered_extendLast {maps : List OopMapBlock} (hne : maps ≠ []) (count x : Nat) :
    Covered platform (extendLast maps count) x ↔ Covered platform maps x ∨
      Covered platform [⟨(maps.getLast hne).offset +
        (maps.getLast hne).count * platform.heapOopSize, count⟩] x := by
  obtain ⟨rest, last, rfl⟩ : ∃ rest last, maps = rest ++ [last] :=
    ⟨_, _, (List.dropLast_concat_getLast hne).symm⟩
  rw [extendLast, List.getLast?_concat, List.getLast_concat, List.dropLast_concat, covered_append,
    covered_extend, covered_append, or_assoc]

theorem nonempty_extendLast {maps : List OopMapBlock} (h : NonemptyBlocks maps) (count : Nat) :
    NonemptyBlocks (extendLast maps count) := by
  rw [extendLast]
  split
  next last hlast =>
    intro block hmem
    rcases List.mem_append.mp hmem with hmem | hmem
    · exact h block (List.dropLast_subset _ hmem)
    · obtain rfl := List.mem_singleton.mp hmem
      exact Nat.lt_of_lt_of_le (h last (List.mem_of_getLast? hlast)) (Nat.le_add_right _ _)
  next => exact h

theorem length_extendLast (maps : List OopMapBlock) (count : Nat) :
    (extendLast maps count).length = maps.length := by
  rw [extendLast]
  split
  next last hlast =>
    cases maps with
    | nil => cases hlast
    | cons b maps => simp
  next => rfl

/-- The maps of the superclass and the own ones; the first own one starts at `first`. -/
theorem fillOopMaps_spec {super : Option InstanceKlass} {superMaps own : List OopMapBlock}
    {first : Nat} (hmaps : (super.map (·.oopMaps)).getD [] = superMaps)
    (hcount : (super.map (·.nonstaticOopMapCount)).getD 0 = superMaps.length)
    (hsuper : NonemptyBlocks superMaps) (hown : NonemptyBlocks own)
    (hfirst : superMaps ≠ [] → ∀ block, own.head? = some block → block.offset = first) :
    let maps := fillOopMaps super (computeOopMapCount platform super own.length first) own
    maps.length = computeOopMapCount platform super own.length first ∧ NonemptyBlocks maps ∧
      ∀ x, Covered platform maps x ↔ Covered platform superMaps x ∨ Covered platform own x := by
  have happend : ∀ block ∈ superMaps ++ own, 0 < block.count := by
    intro block hmem
    rcases List.mem_append.mp hmem with hmem | hmem
    · exact hsuper block hmem
    · exact hown block hmem
  simp only [fillOopMaps, computeOopMapCount, hmaps, hcount, List.take_length]
  cases own with
  | nil =>
    simp only [List.length_nil, Nat.lt_irrefl, if_false]
    exact ⟨trivial, hsuper, fun x => by simp [not_covered_nil]⟩
  | cons block rest =>
    simp only [List.length_cons, Nat.zero_lt_succ, if_true]
    by_cases hnil : superMaps = []
    · subst hnil
      simp only [List.length_nil, if_true, Nat.zero_add, Nat.lt_irrefl, if_false]
      exact ⟨rfl, happend, fun x => covered_append _ _ x⟩
    · have hpos : superMaps.length ≠ 0 := fun hzero => hnil (List.length_eq_zero_iff.mp hzero)
      have hlast : superMaps.getD (superMaps.length - 1) ⟨0, 0⟩ = superMaps.getLast hnil := by
        rw [List.getLast_eq_getElem, List.getD_eq_getElem _ _ (by omega)]
      rw [if_neg hpos, hlast]
      split
      next hend =>
        rw [if_pos (by omega)]
        refine ⟨?_, ?_, ?_⟩
        · rw [List.length_append, length_extendLast]
          omega
        · intro b hmem
          rcases List.mem_append.mp hmem with hmem | hmem
          · exact nonempty_extendLast hsuper _ b hmem
          · exact hown b (List.mem_cons_of_mem _ hmem)
        · intro x
          rw [covered_append, covered_extendLast hnil, hend, ← hfirst hnil block rfl,
            covered_cons block rest, or_assoc]
      next hgap =>
        rw [if_neg (by omega)]
        exact ⟨by simp, happend, fun x => covered_append _ _ x⟩

end HotSpot.FieldLayout
