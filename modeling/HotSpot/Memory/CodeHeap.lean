import Mathlib.Data.List.Basic
import Mathlib.Logic.Function.Basic
import Mathlib.Tactic.Common
import HotSpot.Lib.Runs

/-! # The code heap

`heap.hpp` and `heap.cpp`: a heap of segments that allocates blocks best-fit
from a free list sorted by address, or from the top of the used part, and that
finds the block containing an address through a map with one byte per segment.

A block is named by the index of its first segment, `block_at(i)` being the
address `low + (i << log2_segment_size)`. Sizes are natural numbers:
`CodeCache::allocate` passes an `int`, so no sum of the source comes near the
range of `size_t`.
-/

namespace HotSpot

/-- A `VirtualSpace`, as far as the code heap looks at it. -/
structure VirtualSpace where
  low : Nat
  committedSize : Nat
  reservedSize : Nat

namespace VirtualSpace

def high (space : VirtualSpace) : Nat := space.low + space.committedSize

/-- `expand_by`; `commits` is whether the operating system commits the pages. -/
def expandBy (space : VirtualSpace) (bytes : Nat) (commits : Bool) : Option VirtualSpace :=
  if space.reservedSize - space.committedSize < bytes then none
  else if commits then some { space with committedSize := space.committedSize + bytes }
  else none

/-- `initialize` over a reserved space of `size` bytes at `base`. -/
def initializeAt (base size committed : Nat) (commits : Bool) : Option VirtualSpace :=
  if committed = 0 then some ⟨base, 0, size⟩
  else (⟨base, 0, size⟩ : VirtualSpace).expandBy committed commits

end VirtualSpace

/-- The header of a `HeapBlock` and the link that a `FreeBlock` has behind it. -/
structure HeapBlock where
  length : Nat
  used : Bool
  link : Option Nat

structure CodeHeap where
  memory : VirtualSpace
  segmapSpace : VirtualSpace
  numberOfCommittedSegments : Nat
  numberOfReservedSegments : Nat
  segmentSize : Nat
  log2SegmentSize : Nat
  nextSegment : Nat
  freelist : Option Nat
  freeSegments : Nat
  /-- The bytes of the segment map. -/
  segmap : Nat → BitVec 8
  /-- What a block header at each segment would read. -/
  blockAt : Nat → HeapBlock

namespace CodeHeap

/-- `sizeof(HeapBlock)` and `sizeof(FreeBlock)` in a 64-bit VM. -/
def sizeofHeapBlock : Nat := 16

def sizeofFreeBlock : Nat := 24

/-- What the heap asks the operating system for. The sizes are powers of two, so
that rounding by a mask and by division agree. -/
structure OS where
  vmPageSize : Nat
  vmAllocationGranularity : Nat
  /-- The page size `reserve` chooses: large pages where these can hold code. -/
  pageSize : Nat
  vmPageSize_dvd : vmPageSize ∣ pageSize

def alignSizeUp (size alignment : Nat) : Nat := (size + alignment - 1) / alignment * alignment

def OS.alignToPageSize (os : OS) (size : Nat) : Nat := alignSizeUp size os.vmPageSize

def numberOfSegments (h : CodeHeap) (size : Nat) : Nat :=
  (size + h.segmentSize - 1) >>> h.log2SegmentSize

def segmentFor (h : CodeHeap) (p : Nat) : Nat := (p - h.memory.low) >>> h.log2SegmentSize

/-- The address of the block at segment `i`. -/
def addressOf (h : CodeHeap) (i : Nat) : Nat := h.memory.low + i <<< h.log2SegmentSize

/-- `allocated_space` of the block at segment `i`. -/
def allocatedSpace (h : CodeHeap) (i : Nat) : Nat := h.addressOf i + sizeofHeapBlock

def setBlock (h : CodeHeap) (i : Nat) (b : HeapBlock) : CodeHeap :=
  { h with blockAt := Function.update h.blockAt i b }

def setLength (h : CodeHeap) (i length : Nat) : CodeHeap :=
  h.setBlock i { h.blockAt i with length }

def setUsed (h : CodeHeap) (i : Nat) (used : Bool) : CodeHeap :=
  h.setBlock i { h.blockAt i with used }

def setLink (h : CodeHeap) (i : Nat) (link : Option Nat) : CodeHeap :=
  h.setBlock i { h.blockAt i with link }

/-! ## The segment map -/

/-- The loop of `mark_segmap_as_free` over the `n` bytes from `p` on. -/
def markFreeLoop (segmap : Nat → BitVec 8) : Nat → Nat → Nat → BitVec 8
  | 0, _ => segmap
  | n + 1, p => markFreeLoop (Function.update segmap p 0xFF) n (p + 1)

def markSegmapAsFree (h : CodeHeap) (beg fin : Nat) : CodeHeap :=
  { h with segmap := markFreeLoop h.segmap (fin - beg) beg }

/-- The loop of `mark_segmap_as_used`, which writes `i` at `p` and counts on. -/
def markUsedLoop (segmap : Nat → BitVec 8) : Nat → Nat → Nat → Nat → BitVec 8
  | 0, _, _ => segmap
  | n + 1, p, i =>
    markUsedLoop (Function.update segmap p (BitVec.ofNat 8 i)) n (p + 1)
      (if i + 1 = 0xFF then 1 else i + 1)

def markSegmapAsUsed (h : CodeHeap) (beg fin : Nat) : CodeHeap :=
  { h with segmap := markUsedLoop h.segmap (fin - beg) beg 0 }

/-! ## Heap extents -/

def clear (h : CodeHeap) : CodeHeap :=
  ({ h with nextSegment := 0 }).markSegmapAsFree 0 h.numberOfCommittedSegments

/-- The state the constructor leaves, over arbitrary memory contents. -/
def new (segmap : Nat → BitVec 8) (blockAt : Nat → HeapBlock) : CodeHeap where
  memory := ⟨0, 0, 0⟩
  segmapSpace := ⟨0, 0, 0⟩
  numberOfCommittedSegments := 0
  numberOfReservedSegments := 0
  segmentSize := 0
  log2SegmentSize := 0
  nextSegment := 0
  freelist := none
  freeSegments := 0
  segmap := segmap
  blockAt := blockAt

/-- `reserve`, with the addresses the system reserves the two spaces at and its
answers to the two requests for pages. -/
def reserve (h : CodeHeap) (os : OS) (reservedSize committedSize segmentSize : Nat)
    (base mapBase : Nat) (commits mapCommits : Bool) : Option CodeHeap := do
  let rSize := alignSizeUp reservedSize (max os.pageSize os.vmAllocationGranularity)
  let cSize := alignSizeUp committedSize os.pageSize
  let memory ← VirtualSpace.initializeAt base rSize cSize commits
  let h := { h with segmentSize, log2SegmentSize := Nat.log2 segmentSize, memory }
  let committed := h.numberOfSegments memory.committedSize
  let reserved := h.numberOfSegments memory.reservedSize
  let segmapSpace ← VirtualSpace.initializeAt mapBase (os.alignToPageSize reserved)
    (os.alignToPageSize committed) mapCommits
  some ({ h with
    numberOfCommittedSegments := committed
    numberOfReservedSegments := reserved
    segmapSpace }).clear

/-- `expand_by`, with the system's answers; a result of `false` is paired with
the state it leaves behind. -/
def expandBy (h : CodeHeap) (os : OS) (size : Nat) (commits mapCommits : Bool) :
    Bool × CodeHeap :=
  let dm := os.alignToPageSize (h.memory.committedSize + size) - h.memory.committedSize
  if dm = 0 then (true, h)
  else
    match h.memory.expandBy dm commits with
    | none => (false, h)
    | some memory =>
      let i := h.numberOfCommittedSegments
      let h := { h with memory }
      let h := { h with
        numberOfCommittedSegments := h.numberOfSegments memory.committedSize }
      let ds := os.alignToPageSize h.numberOfCommittedSegments - h.segmapSpace.committedSize
      if ds = 0 then (true, h.markSegmapAsFree i h.numberOfCommittedSegments)
      else
        match h.segmapSpace.expandBy ds mapCommits with
        | none => (false, h)
        | some segmapSpace =>
          (true, ({ h with segmapSpace }).markSegmapAsFree i h.numberOfCommittedSegments)

/-! ## The free list -/

def followingBlock (h : CodeHeap) (b : Nat) : Nat := b + (h.blockAt b).length

/-- Try to merge this block with the following block. -/
def mergeRight (h : CodeHeap) (a : Nat) : CodeHeap :=
  match (h.blockAt a).link with
  | none => h
  | some l =>
    if h.followingBlock a = l then
      let h := h.setLength a ((h.blockAt a).length + (h.blockAt l).length)
      let h := h.setLink a (h.blockAt l).link
      h.markSegmapAsUsed a (a + (h.blockAt a).length)
    else h

/-- Inserts block `b` after `a`. -/
def insertAfter (h : CodeHeap) (a b : Nat) : CodeHeap :=
  let h := h.setLink b (h.blockAt a).link
  let h := h.setLink a (some b)
  (h.mergeRight b).mergeRight a

/-- The scan of `add_to_freelist` for the place of `b`. -/
def scanFreelist (h : CodeHeap) (b : Nat) :
    Nat → Option Nat → Option Nat → Option (Option Nat × Option Nat)
  | 0, _, _ => none
  | fuel + 1, prev, cur =>
    match cur with
    | none => some (prev, none)
    | some c => if c < b then scanFreelist h b fuel (some c) (h.blockAt c).link
        else some (prev, some c)

/-- `add_to_freelist`; without a value if the scan does not end. -/
def addToFreelist (h : CodeHeap) (b : Nat) : Option CodeHeap :=
  let h := { h with freeSegments := h.freeSegments + (h.blockAt b).length }
  let h := h.setUsed b false
  match h.freelist with
  | none => some (({ h with freelist := some b }).setLink b none)
  | some first =>
    match h.scanFreelist b (h.nextSegment + 1) none (some first) with
    | none => none
    | some (none, _) =>
      let h := h.setLink b (some first)
      some (({ h with freelist := some b }).mergeRight b)
    | some (some prev, _) => some (h.insertAfter prev b)

/-- The best block of the scan so far, with its predecessor. -/
structure Best where
  block : Nat
  prev : Option Nat

/-- The scan of `search_freelist` for the smallest block of at least `length`. -/
def scanBest (h : CodeHeap) (length : Nat) :
    Nat → Option Best → Option Nat → Option Nat → Option (Option Best)
  | 0, _, _, _ => none
  | fuel + 1, best, prev, cur =>
    match cur with
    | none => some best
    | some c =>
      let l := (h.blockAt c).length
      let better := best.all fun b => l < (h.blockAt b.block).length
      let best := if length ≤ l ∧ better then some ⟨c, prev⟩ else best
      scanBest h length fuel best (some c) (h.blockAt c).link

/-- The build's flags; every platform sets `CodeCacheMinBlockLength` to 1 or 4. -/
structure Globals where
  codeCacheMinBlockLength : Nat
  codeCacheMinBlockLength_pos : 0 < codeCacheMinBlockLength

variable (globals : Globals)

/-- Takes the block `b` behind `prev` off the list, for an exact (or at least good
enough) fit. -/
def unlink (h : CodeHeap) (b : Nat) (prev : Option Nat) : CodeHeap :=
  let h' := match prev with
    | none => { h with freelist := (h.blockAt b).link }
    | some prev => h.setLink prev (h.blockAt b).link
  h'.setUsed b true

/-- Truncates the block `b` to `front` segments and makes a used block of the
`n` segments that follow it. -/
def cutTail (h : CodeHeap) (b front n : Nat) : CodeHeap :=
  (((h.setLength b front).markSegmapAsUsed (b + front) (b + front + n)).setLength
    (b + front) n).setUsed (b + front) true

def setFreeSegments (h : CodeHeap) (freeSegments : Nat) : CodeHeap := { h with freeSegments }

/-- `search_freelist`: the block taken, if any, and the state after; without a
value if the scan does not end. -/
def searchFreelist (h : CodeHeap) (length : Nat) : Option (Option Nat × CodeHeap) :=
  match h.scanBest length (h.nextSegment + 1) none none h.freelist with
  | none => none
  | some none => some (none, h)
  | some (some best) =>
    let bestLength := (h.blockAt best.block).length
    if bestLength < length + globals.codeCacheMinBlockLength then
      some (some best.block,
        (h.unlink best.block best.prev).setFreeSegments (h.freeSegments - bestLength))
    else
      let front := bestLength - length
      some (some (best.block + front),
        (h.cutTail best.block front length).setFreeSegments (h.freeSegments - length))

/-! ## Memory allocation -/

/-- Puts a used block of `length` segments on top of the used ones. -/
def bump (h : CodeHeap) (length : Nat) : CodeHeap :=
  let b := h.nextSegment
  let h := h.markSegmapAsUsed b (b + length)
  { h.setBlock b { h.blockAt b with length, used := true } with nextSegment := b + length }

/-- `allocate`: the address handed out, or nothing for `NULL`. -/
def allocate (h : CodeHeap) (size : Nat) : Option (Option Nat × CodeHeap) :=
  let length := h.numberOfSegments (size + sizeofHeapBlock)
  match h.searchFreelist globals length with
  | none => none
  | some (some block, h) => some (some (h.allocatedSpace block), h)
  | some (none, h) =>
    let length := if length < globals.codeCacheMinBlockLength
      then globals.codeCacheMinBlockLength else length
    if h.nextSegment + length ≤ h.numberOfCommittedSegments then
      some (some (h.allocatedSpace h.nextSegment), h.bump length)
    else some (none, h)

def deallocate (h : CodeHeap) (p : Nat) : Option CodeHeap :=
  h.addToFreelist (h.segmentFor (p - sizeofHeapBlock))

/-! ## Lookup and iteration -/

def contains (h : CodeHeap) (p : Nat) : Bool := h.memory.low ≤ p ∧ p < h.memory.high

/-- The loop of `find_start`; without a value if it does not end within `fuel`
rounds or leaves the map. -/
def findStartLoop (segmap : Nat → BitVec 8) : Nat → Nat → Option Nat
  | 0, _ => none
  | fuel + 1, i =>
    if segmap i = 0 then some i
    else if (segmap i).toNat ≤ i then findStartLoop segmap fuel (i - (segmap i).toNat)
    else none

/-- `find_start`: the address of the block's space, or nothing for `NULL`. -/
def findStart (h : CodeHeap) (p : Nat) : Option (Option Nat) :=
  if h.contains p then
    let i := h.segmentFor p
    if h.segmap i = 0xFF then some none
    else
      (findStartLoop h.segmap (i + 1) i).map fun b =>
        if (h.blockAt b).used then some (h.allocatedSpace b) else none
  else some none

def firstBlock (h : CodeHeap) : Option Nat := if 0 < h.nextSegment then some 0 else none

def blockStart (h : CodeHeap) (q : Nat) : Option (Option Nat) :=
  (h.findStart q).map fun p => p.map fun p => h.segmentFor (p - sizeofHeapBlock)

def nextBlock (h : CodeHeap) : Option Nat → Option Nat
  | none => none
  | some b =>
    let i := b + (h.blockAt b).length
    if i < h.nextSegment then some i else none

def nextFree (h : CodeHeap) (b : Option Nat) : Option Nat :=
  let b := match b with
    | none => none
    | some i => if (h.blockAt i).used then some i else h.nextBlock (some i)
  b.map h.allocatedSpace

def first (h : CodeHeap) : Option Nat := h.nextFree h.firstBlock

def next (h : CodeHeap) (p : Nat) : Option (Option Nat) :=
  (h.blockStart p).map fun b => h.nextFree (h.nextBlock b)

end CodeHeap

end HotSpot
