import HotSpot.Lib.Runs
import HotSpot.Memory.CodeHeapAllocate
import Mathlib

/-! # Runs of the code heap

A run reserves the heap and then allocates, deallocates and expands in any
order, while the owners of the blocks write into them. The heap stays a tiling
with merged free blocks, whose used tiles are the blocks handed out and not yet
given back.
-/

namespace HotSpot.CodeHeap

open Tiling

/-- A heap with the addresses that `allocate` has handed out and `deallocate`
has not taken back. -/
structure Session where
  heap : CodeHeap
  live : Set Nat

/-- The block whose space starts at `p`. -/
def blockOf (h : CodeHeap) (p : Nat) : Nat := h.segmentFor (p - sizeofHeapBlock)

/-- The states after a successful `reserve`. The conditions are those it asserts,
and that a page is made of whole segments: its caller's have 64 bytes. -/
inductive Reserved (os : OS) : Session → Prop
  | intro {segmap : Nat → BitVec 8} {blockAt : Nat → HeapBlock}
      {reservedSize committedSize segmentSize base mapBase : Nat} {commits mapCommits : Bool}
      {h : CodeHeap} (hsizes : committedSize ≤ reservedSize)
      (hroom : sizeofFreeBlock ≤ segmentSize) (hpow : ∃ k, segmentSize = 2 ^ k)
      (hpage : segmentSize ∣ os.vmPageSize)
      (hreserve : (new segmap blockAt).reserve os reservedSize committedSize segmentSize base
        mapBase commits mapCommits = some h) :
      Reserved os ⟨h, ∅⟩

/-- One operation of a run. -/
inductive Step (globals : Globals) (os : OS) : Session → Session → Prop
  | allocate {h h' : CodeHeap} {live : Set Nat} {size p : Nat}
      (hallocate : h.allocate globals size = some (some p, h')) :
      Step globals os ⟨h, live⟩ ⟨h', insert p live⟩
  | allocateFull {h h' : CodeHeap} {live : Set Nat} {size : Nat}
      (hallocate : h.allocate globals size = some (none, h')) :
      Step globals os ⟨h, live⟩ ⟨h', live⟩
  | deallocate {h h' : CodeHeap} {live : Set Nat} {p : Nat} (hlive : p ∈ live)
      (hdeallocate : h.deallocate p = some h') :
      Step globals os ⟨h, live⟩ ⟨h', live \ {p}⟩
  | expandBy {h h' : CodeHeap} {live : Set Nat} {size : Nat} {commits mapCommits : Bool}
      (hexpand : h.expandBy os size commits mapCommits = (true, h')) :
      Step globals os ⟨h, live⟩ ⟨h', live⟩
  /-- The owner of a block may overwrite all of it but the header. -/
  | write {h : CodeHeap} {live : Set Nat} {p : Nat} {blockAt : Nat → HeapBlock} (hlive : p ∈ live)
      (hheader : (blockAt (h.blockOf p)).length = (h.blockAt (h.blockOf p)).length ∧
        (blockAt (h.blockOf p)).used = (h.blockAt (h.blockOf p)).used)
      (houtside : ∀ i, i < h.blockOf p ∨ h.followingBlock (h.blockOf p) ≤ i →
        blockAt i = h.blockAt i) :
      Step globals os ⟨h, live⟩ ⟨{ h with blockAt }, live⟩

def system (globals : Globals) (os : OS) : TransitionSystem Session where
  init := Reserved os
  step := Step globals os

/-! ## The invariant of a run -/

structure Geometry (os : OS) (h : CodeHeap) : Prop where
  segment : h.segmentSize = 2 ^ h.log2SegmentSize
  room : sizeofFreeBlock ≤ h.segmentSize
  page : h.segmentSize ∣ os.vmPageSize
  committed : h.numberOfCommittedSegments * h.segmentSize = h.memory.committedSize

/-- The live addresses are those of the used tiles. -/
def OwnsUsed (h : CodeHeap) (live : Set Nat) (tiles : List Tile) : Prop :=
  ∀ p, p ∈ live ↔ ∃ place tile, (place, tile) ∈ placed 0 tiles ∧ tile.used = true ∧
    p = h.allocatedSpace place

structure WellFormed (os : OS) (s : Session) (tiles : List Tile) : Prop where
  represents : s.heap.Represents tiles
  merged : NoAdjacentFree tiles
  geometry : Geometry os s.heap
  owns : s.heap.OwnsUsed s.live tiles

variable {h h' : CodeHeap} {globals : Globals} {os : OS} {tiles : List Tile} {live : Set Nat}

theorem Geometry.of_extent {next : Nat}
    (hextent : h'.extent = { h.extent with nextSegment := next })
    (hgeometry : Geometry os h) : Geometry os h' := by
  have hmemory : h'.memory = h.memory := congrArg Extent.memory hextent
  have hsize : h'.segmentSize = h.segmentSize := congrArg Extent.segmentSize hextent
  have hlog : h'.log2SegmentSize = h.log2SegmentSize := congrArg Extent.log2SegmentSize hextent
  have hcommitted : h'.numberOfCommittedSegments = h.numberOfCommittedSegments :=
    congrArg Extent.numberOfCommittedSegments hextent
  obtain ⟨hsegment, hroom, hpage, hbytes⟩ := hgeometry
  exact ⟨by rw [hsize, hlog, hsegment], by rwa [hsize], by rwa [hsize],
    by rw [hcommitted, hsize, hmemory, hbytes]⟩

theorem allocatedSpace_of_extent {next : Nat}
    (hextent : h'.extent = { h.extent with nextSegment := next }) (i : Nat) :
    h'.allocatedSpace i = h.allocatedSpace i := by
  have hmemory : h'.memory = h.memory := congrArg Extent.memory hextent
  have hlog : h'.log2SegmentSize = h.log2SegmentSize := congrArg Extent.log2SegmentSize hextent
  simp only [allocatedSpace, addressOf, hmemory, hlog]

theorem segmentFor_addressOf_add {i k : Nat} (hk : k < 2 ^ h.log2SegmentSize) :
    h.segmentFor (h.addressOf i + k) = i := by
  rw [segmentFor, addressOf, Nat.add_assoc, Nat.add_sub_cancel_left, Nat.shiftRight_eq_div_pow,
    Nat.shiftLeft_eq, Nat.add_comm, Nat.add_mul_div_right _ _ (Nat.two_pow_pos _),
    Nat.div_eq_of_lt hk, Nat.zero_add]

theorem blockOf_allocatedSpace (i : Nat) : h.blockOf (h.allocatedSpace i) = i := by
  rw [blockOf, allocatedSpace, Nat.add_sub_cancel]
  exact segmentFor_addressOf_add (k := 0) (Nat.two_pow_pos _)

theorem allocatedSpace_injective {i j : Nat} (heq : h.allocatedSpace i = h.allocatedSpace j) :
    i = j := by
  rw [← blockOf_allocatedSpace (h := h) i, heq, blockOf_allocatedSpace]

theorem numberOfSegments_mul {size : Nat} (hsegment : h.segmentSize = 2 ^ h.log2SegmentSize)
    (hdvd : h.segmentSize ∣ size) : h.numberOfSegments size * h.segmentSize = size := by
  have hpos : 0 < h.segmentSize := hsegment ▸ Nat.two_pow_pos _
  obtain ⟨k, rfl⟩ := hdvd
  rw [numberOfSegments, Nat.shiftRight_eq_div_pow, ← hsegment, Nat.add_sub_assoc hpos,
    Nat.mul_add_div hpos, Nat.div_eq_of_lt (by omega), Nat.add_zero, Nat.mul_comm]

theorem dvd_alignSizeUp (size alignment : Nat) : alignment ∣ alignSizeUp size alignment :=
  Nat.dvd_mul_left _ _

/-! ## Every operation keeps the invariant -/

theorem committedSize_initializeAt {base size committed : Nat} {commits : Bool}
    {space : VirtualSpace}
    (hspace : VirtualSpace.initializeAt base size committed commits = some space) :
    space.committedSize = committed := by
  unfold VirtualSpace.initializeAt at hspace
  split at hspace
  next hzero =>
    obtain rfl := Option.some.inj hspace
    exact hzero.symm
  next =>
    unfold VirtualSpace.expandBy at hspace
    split at hspace
    next => simp at hspace
    next =>
      split at hspace
      next =>
        obtain rfl := Option.some.inj hspace
        exact Nat.zero_add _
      next => simp at hspace

theorem clear_represents (hfreelist : h.freelist = none) (hfree : h.freeSegments = 0) :
    h.clear.Represents [] := by
  refine ⟨⟨by simp, rfl, Nat.zero_le _, by simp, fun i _ hlt => ?_⟩, hfreelist, hfree⟩
  refine (markFreeLoop_apply _ _ _ _).trans (if_pos ⟨Nat.zero_le _, ?_⟩)
  simpa [clear, markSegmapAsFree] using hlt

theorem wellFormed_reserve {s : Session} (hreserved : Reserved os s) : WellFormed os s [] := by
  obtain ⟨-, hroom, ⟨k, rfl⟩, hpage, hreserve⟩ := hreserved
  simp only [reserve, Option.bind_eq_bind, Option.bind_eq_some_iff, Option.some.injEq] at hreserve
  obtain ⟨memory, hmemory, segmapSpace, -, rfl⟩ := hreserve
  have hdvd : 2 ^ k ∣ memory.committedSize := by
    rw [committedSize_initializeAt hmemory]
    exact (hpage.trans os.vmPageSize_dvd).trans (dvd_alignSizeUp _ _)
  have hsegment : 2 ^ k = 2 ^ Nat.log2 (2 ^ k) := by rw [Nat.log2_two_pow]
  refine ⟨clear_represents rfl rfl, List.isChain_nil,
    ⟨hsegment, hroom, hpage, numberOfSegments_mul hsegment hdvd⟩, fun p => by simp⟩

/-- `allocate` returns, and a block it hands out is new and long enough. -/
theorem allocate_wellFormed (globals : Globals) (hwf : WellFormed os ⟨h, live⟩ tiles) (size : Nat) :
    h.allocate globals size = some (none, h) ∨
      ∃ b length h' tiles', h.allocate globals size = some (some (h'.allocatedSpace b), h') ∧
        WellFormed os ⟨h', insert (h'.allocatedSpace b) live⟩ tiles' ∧
        (b, ⟨length, true⟩) ∈ placed 0 tiles' ∧ h'.allocatedSpace b ∉ live ∧
        h'.numberOfSegments (size + sizeofHeapBlock) ≤ length := by
  rcases allocate_represents globals hwf.represents hwf.merged hwf.geometry.segment size with
    hnone | ⟨b, h', hsome, hextent, tiles', length, hrep, hadj, huses, hle⟩
  · exact Or.inl hnone
  have hnew : (b, ⟨length, true⟩) ∈ placed 0 tiles' := (huses.used_iff b _ rfl).mpr (Or.inr rfl)
  refine Or.inr ⟨b, length, h', tiles', hsome,
    ⟨hrep, hadj, hwf.geometry.of_extent hextent, fun q => ?_⟩, hnew, fun hlive => ?_, ?_⟩
  · rw [Set.mem_insert_iff, hwf.owns q]
    simp only [allocatedSpace_of_extent hextent]
    constructor
    · rintro (rfl | ⟨place, tile, hmem, hused, rfl⟩)
      · exact ⟨b, _, hnew, rfl, rfl⟩
      · exact ⟨place, tile, (huses.used_iff place tile hused).mpr (Or.inl hmem), hused, rfl⟩
    · rintro ⟨place, tile, hmem, hused, rfl⟩
      rcases (huses.used_iff place tile hused).mp hmem with hold | heq
      · exact Or.inr ⟨place, tile, hold, hused, rfl⟩
      · obtain ⟨rfl, -⟩ := Prod.mk.inj heq
        exact Or.inl rfl
  · rw [allocatedSpace_of_extent hextent] at hlive
    obtain ⟨place, tile, hmem, hused, heq⟩ := (hwf.owns _).mp hlive
    obtain rfl := allocatedSpace_injective heq
    exact huses.fresh tile hused hmem
  · have hsize : h'.segmentSize = h.segmentSize := congrArg Extent.segmentSize hextent
    have hlog : h'.log2SegmentSize = h.log2SegmentSize := congrArg Extent.log2SegmentSize hextent
    rw [numberOfSegments, hsize, hlog]
    exact hle

theorem deallocate_eq {p : Nat} (hwf : WellFormed os ⟨h, live⟩ tiles) (hlive : p ∈ live) :
    ∃ h' tiles', h.deallocate p = some h' ∧ WellFormed os ⟨h', live \ {p}⟩ tiles' ∧
      ∀ m, (∀ tile ∈ tiles, m ≤ tile.length) → ∀ tile ∈ tiles', m ≤ tile.length := by
  obtain ⟨place, tile, hmem, hused, rfl⟩ := (hwf.owns p).mp hlive
  obtain ⟨left, right, rfl, hplace⟩ := mem_placed_split hmem
  rw [Nat.zero_add] at hplace
  obtain ⟨length, used⟩ := tile
  obtain rfl : used = true := hused
  obtain ⟨h', tiles', hadd, hrep, hadj, hfrees, hlengths⟩ :=
    addToFreelist_represents hwf.represents hwf.merged
  have hextent : h'.extent = { h.extent with nextSegment := h.nextSegment } :=
    extent_addToFreelist hadd
  refine ⟨h', tiles', ?_, ⟨hrep, hadj, hwf.geometry.of_extent hextent, fun q => ?_⟩, hlengths⟩
  · rw [deallocate]
    change h.addToFreelist (h.blockOf _) = _
    rw [blockOf_allocatedSpace, hplace]
    exact hadd
  · rw [Set.mem_sdiff, hwf.owns q, Set.mem_singleton_iff]
    simp only [allocatedSpace_of_extent hextent]
    constructor
    · rintro ⟨⟨i, tile, hi, hiUsed, rfl⟩, hne⟩
      refine ⟨i, tile, (hfrees i tile hiUsed).mpr ⟨hi, ?_⟩, hiUsed, rfl⟩
      rintro rfl
      exact hne (by rw [hplace])
    · rintro ⟨i, tile, hi, hiUsed, rfl⟩
      obtain ⟨hold, hne⟩ := (hfrees i tile hiUsed).mp hi
      refine ⟨⟨i, tile, hold, hiUsed, rfl⟩, fun heq => hne ?_⟩
      rw [← hplace]
      exact allocatedSpace_injective heq

/-- Committing more memory marks the new segments as free. -/
theorem Represents.grow (hrep : h.Represents tiles) (hblock : h'.blockAt = h.blockAt)
    (hnext : h'.nextSegment = h.nextSegment) (hfreelist : h'.freelist = h.freelist)
    (hcount : h'.freeSegments = h.freeSegments)
    (hle : h.numberOfCommittedSegments ≤ h'.numberOfCommittedSegments)
    (hsegmap : ∀ i, h'.segmap i =
      if h.numberOfCommittedSegments ≤ i ∧ i < h'.numberOfCommittedSegments then 0xFF
      else h.segmap i) : h'.Represents tiles := by
  have hspan := hrep.span_eq
  have hcommitted := hrep.next_le
  refine ⟨⟨hrep.positive, by omega, by omega, fun p hp => ?_, fun i hi hlt => ?_⟩, ?_, ?_⟩
  · have hold := hrep.holds p hp
    have hbounds := mem_placed_bounds hp
    refine ⟨hblock ▸ hold.length_eq, hblock ▸ hold.used_eq,
      hold.chains.congr (hrep.positive _ (mem_placed_mem hp)) fun i _ hi => ?_⟩
    rw [hsegmap, if_neg (by omega)]
  · rw [hsegmap]
    split
    next => rfl
    next => exact hrep.unused i (by omega) (by omega)
  · have hlink : h'.linkOf = h.linkOf := by
      funext i
      rw [linkOf, hblock, linkOf]
    rw [hlink, hfreelist]
    exact hrep.linked
  · rw [hcount]
    exact hrep.count

/-- The heap over a larger memory, the new segments marked as free. -/
def growTo (h : CodeHeap) (memory segmapSpace : VirtualSpace) : CodeHeap :=
  ({ h with
    memory, segmapSpace,
    numberOfCommittedSegments := h.numberOfSegments memory.committedSize }).markSegmapAsFree
      h.numberOfCommittedSegments (h.numberOfSegments memory.committedSize)

theorem expandBy_cases {size : Nat} {commits mapCommits : Bool}
    (hexpand : h.expandBy os size commits mapCommits = (true, h')) :
    h' = h ∨ ∃ bytes segmapSpace, os.vmPageSize ∣ h.memory.committedSize + bytes ∧
      h' = h.growTo { h.memory with committedSize := h.memory.committedSize + bytes }
        segmapSpace := by
  unfold expandBy at hexpand
  dsimp only at hexpand
  split at hexpand
  next => exact Or.inl (Prod.mk.inj hexpand).2.symm
  next =>
    split at hexpand
    next => simp at hexpand
    next hmore _ memory hmemory =>
      have haligned : h.memory.committedSize +
          (os.alignToPageSize (h.memory.committedSize + size) - h.memory.committedSize) =
            os.alignToPageSize (h.memory.committedSize + size) := by omega
      obtain ⟨bytes, hdvd, rfl⟩ : ∃ bytes, os.vmPageSize ∣ h.memory.committedSize + bytes ∧
          memory = { h.memory with committedSize := h.memory.committedSize + bytes } := by
        unfold VirtualSpace.expandBy at hmemory
        split at hmemory
        next => simp at hmemory
        next =>
          split at hmemory
          next =>
            refine ⟨_, ?_, (Option.some.inj hmemory).symm⟩
            rw [haligned]
            exact dvd_alignSizeUp _ _
          next => simp at hmemory
      right
      split at hexpand
      next => exact ⟨bytes, _, hdvd, (Prod.mk.inj hexpand).2.symm⟩
      next =>
        split at hexpand
        next => simp at hexpand
        next segmapSpace _ => exact ⟨bytes, segmapSpace, hdvd, (Prod.mk.inj hexpand).2.symm⟩

theorem wellFormed_expandBy {size : Nat} {commits mapCommits : Bool}
    (hwf : WellFormed os ⟨h, live⟩ tiles)
    (hexpand : h.expandBy os size commits mapCommits = (true, h')) :
    WellFormed os ⟨h', live⟩ tiles := by
  rcases expandBy_cases hexpand with rfl | ⟨bytes, segmapSpace, hdvd, rfl⟩
  · exact hwf
  · obtain ⟨hsegment, hroom, hpage, hbytes⟩ := hwf.geometry
    have hmul := numberOfSegments_mul hsegment (hpage.trans hdvd)
    have hle : h.numberOfCommittedSegments ≤
        h.numberOfSegments (h.memory.committedSize + bytes) := by
      refine Nat.le_of_mul_le_mul_right ?_ (hsegment ▸ Nat.two_pow_pos _ : 0 < h.segmentSize)
      rw [hmul, hbytes]
      exact Nat.le_add_right _ _
    refine ⟨hwf.represents.grow rfl rfl rfl rfl hle fun i => ?_, hwf.merged,
      ⟨hsegment, hroom, hpage, hmul⟩, hwf.owns⟩
    refine (markFreeLoop_apply _ _ _ _).trans ?_
    rw [Nat.add_sub_cancel' hle]
    rfl

/-- What an owner writes into a block stays inside the block's tile. -/
theorem wellFormed_write {p : Nat} {blockAt : Nat → HeapBlock} (hwf : WellFormed os ⟨h, live⟩ tiles)
    (hlive : p ∈ live)
    (hheader : (blockAt (h.blockOf p)).length = (h.blockAt (h.blockOf p)).length ∧
      (blockAt (h.blockOf p)).used = (h.blockAt (h.blockOf p)).used)
    (houtside : ∀ i, i < h.blockOf p ∨ h.followingBlock (h.blockOf p) ≤ i →
      blockAt i = h.blockAt i) :
    WellFormed os ⟨{ h with blockAt }, live⟩ tiles := by
  obtain ⟨place, tile, hmem, hused, rfl⟩ := (hwf.owns p).mp hlive
  rw [blockOf_allocatedSpace] at hheader houtside
  obtain ⟨left, right, rfl, rfl⟩ := mem_placed_split hmem
  rw [Nat.zero_add] at *
  obtain ⟨length, used⟩ := tile
  obtain rfl : used = true := hused
  have hrep := hwf.represents
  have hold := hrep.block
  have hpos : 0 < length := hrep.positive ⟨length, true⟩ (by simp)
  have hfollowing : h.followingBlock (span left) = span left + length := by
    rw [followingBlock, hold.length_eq]
  rw [hfollowing] at houtside
  refine ⟨⟨?_, ?_, hrep.count⟩, hwf.merged, ⟨hwf.geometry.segment, hwf.geometry.room,
    hwf.geometry.page, hwf.geometry.committed⟩, hwf.owns⟩
  · have hextent : ({ h with blockAt } : CodeHeap).extent = h.extent := rfl
    refine Tiled.replace [⟨length, true⟩] [⟨length, true⟩] hrep.toTiled hextent rfl
      (by simpa using hpos) ?_ ?_
    · intro i hout
      have heq := houtside i (by simpa using hout)
      exact ⟨by rw [← heq], by rw [← heq], rfl⟩
    · rintro p hp
      obtain rfl := List.mem_singleton.mp hp
      exact ⟨hheader.1.trans hold.length_eq, hheader.2.trans hold.used_eq, hold.chains⟩
  · refine LinkedSegment.congr (fun i hi => ?_) hrep.linked
    rw [freeStarts_append, freeStarts_cons_used, Nat.zero_add, List.mem_append] at hi
    have heq : blockAt i = h.blockAt i := by
      rcases hi with hi | hi
      · exact houtside i (Or.inl (hrep.freeStarts_left i hi))
      · exact houtside i (Or.inr (hrep.freeStarts_right i hi))
    simp only [linkOf, heq]

/-- One operation keeps the heap well-formed. -/
theorem Step.wellFormed {s s' : Session} (hwf : ∃ tiles, WellFormed os s tiles)
    (hstep : Step globals os s s') : ∃ tiles, WellFormed os s' tiles := by
  obtain ⟨tiles, hwf⟩ := hwf
  cases hstep with
  | @allocate h h' live size p hallocate =>
    rcases allocate_wellFormed globals hwf size with hnone | ⟨b, _, h'', tiles', hsome, hwf', -⟩
    · simp [hnone] at hallocate
    · rw [hsome] at hallocate
      obtain ⟨rfl, rfl⟩ := by simpa using hallocate
      exact ⟨tiles', hwf'⟩
  | @allocateFull h h' live size hallocate =>
    rcases allocate_wellFormed globals hwf size with hnone | ⟨_, _, _, _, hsome, -⟩
    · obtain rfl : h = h' := by simpa [hnone] using hallocate
      exact ⟨tiles, hwf⟩
    · simp [hsome] at hallocate
  | deallocate hlive hdeallocate =>
    obtain ⟨h'', tiles', heq, hwf', -⟩ := deallocate_eq hwf hlive
    rw [hdeallocate] at heq
    obtain rfl := Option.some.inj heq
    exact ⟨tiles', hwf'⟩
  | expandBy hexpand => exact ⟨tiles, wellFormed_expandBy hwf hexpand⟩
  | write hlive hheader houtside => exact ⟨tiles, wellFormed_write hwf hlive hheader houtside⟩

/-- Every state of every run is well-formed. -/
theorem reachable_wellFormed {s : Session} (hs : (system globals os).Reachable s) :
    ∃ tiles, WellFormed os s tiles := by
  refine hs.invariant (P := fun s => ∃ tiles, WellFormed os s tiles) ?_ ?_
  · exact fun _ hinit => ⟨[], wellFormed_reserve hinit⟩
  · exact fun _ _ hwf hstep => Step.wellFormed hwf hstep

/-! ## The invariant, read off the heap -/

/-- Following the lengths of the blocks from `start` visits `blocks` and ends at `stop`. -/
def TilesFrom (h : CodeHeap) : Nat → List Nat → Nat → Prop
  | start, [], stop => start = stop
  | start, b :: blocks, stop =>
    b = start ∧ 0 < (h.blockAt b).length ∧ h.TilesFrom (h.followingBlock b) blocks stop

def isFree (h : CodeHeap) (b : Nat) : Bool := !(h.blockAt b).used

/-- The representation invariant, with the blocks that start in segment 0. -/
structure RepresentationInvariant (h : CodeHeap) (blocks : List Nat) : Prop where
  tiles : h.TilesFrom 0 blocks h.nextSegment
  freelist : LinkedSegment h.linkOf h.freelist (blocks.filter h.isFree) none
  sorted : (blocks.filter h.isFree).Pairwise fun a b => h.addressOf a < h.addressOf b
  merged : blocks.IsChain fun a b => ¬ (h.isFree a = true ∧ h.isFree b = true)
  counted : h.freeSegments = ((blocks.filter h.isFree).map fun b => (h.blockAt b).length).sum

/-- The segments of the block at `b`. -/
def segments (h : CodeHeap) (b : Nat) : Set Nat := Set.Ico b (h.followingBlock b)

section Placed

variable {start : Nat}

theorem tilesFrom_placed (hpos : ∀ tile ∈ tiles, 0 < tile.length)
    (hholds : ∀ p ∈ placed start tiles, h.Holds p) :
    h.TilesFrom start ((placed start tiles).map Prod.fst) (start + span tiles) := by
  induction tiles generalizing start with
  | nil => rfl
  | cons head tail ih =>
    rw [List.forall_mem_cons] at hpos
    rw [placed_cons, List.forall_mem_cons] at hholds
    have hlength : (h.blockAt start).length = head.length := hholds.1.length_eq
    refine ⟨rfl, by rw [hlength]; exact hpos.1, ?_⟩
    rw [followingBlock, hlength, span_cons, ← Nat.add_assoc]
    exact ih hpos.2 hholds.2

theorem filter_isFree_placed (hholds : ∀ p ∈ placed start tiles, h.Holds p) :
    ((placed start tiles).map Prod.fst).filter h.isFree = freeStarts start tiles := by
  rw [List.filter_map, freeStarts_eq_map_filter]
  refine congrArg _ (List.filter_congr fun p hp => ?_)
  simp [isFree, (hholds p hp).used_eq]

theorem freeLength_eq_sum (hholds : ∀ p ∈ placed start tiles, h.Holds p) :
    ((freeStarts start tiles).map fun b => (h.blockAt b).length).sum = freeLength tiles := by
  induction tiles generalizing start with
  | nil => rfl
  | cons head tail ih =>
    rw [placed_cons, List.forall_mem_cons] at hholds
    obtain ⟨length, used⟩ := head
    have hlength : (h.blockAt start).length = length := hholds.1.length_eq
    cases used with
    | true => simpa using ih hholds.2
    | false => simp [hlength, ih hholds.2]

theorem isChain_placed (hmerged : NoAdjacentFree tiles)
    (hholds : ∀ p ∈ placed start tiles, h.Holds p) :
    ((placed start tiles).map Prod.fst).IsChain
      fun a b => ¬ (h.isFree a = true ∧ h.isFree b = true) := by
  rw [← map_snd_placed start tiles, NoAdjacentFree, List.isChain_map] at hmerged
  rw [List.isChain_map]
  refine hmerged.imp_of_mem_imp fun p q hp hq hused => ?_
  simp only [isFree, (hholds p hp).used_eq, (hholds q hq).used_eq]
  grind

end Placed

theorem addressOf_lt {i j : Nat} (hlt : i < j) : h.addressOf i < h.addressOf j := by
  rw [addressOf, addressOf, Nat.shiftLeft_eq, Nat.shiftLeft_eq]
  exact Nat.add_lt_add_left (Nat.mul_lt_mul_of_pos_right hlt (Nat.two_pow_pos _)) _

theorem WellFormed.representationInvariant {s : Session} (hwf : WellFormed os s tiles) :
    s.heap.RepresentationInvariant ((placed 0 tiles).map Prod.fst) := by
  have hholds := hwf.represents.holds
  have hpos := hwf.represents.positive
  constructor
  · have htiles := tilesFrom_placed hpos hholds
    rwa [Nat.zero_add, hwf.represents.span_eq] at htiles
  · rw [filter_isFree_placed hholds]
    exact hwf.represents.linked
  · rw [filter_isFree_placed hholds]
    exact (freeStarts_sorted 0 hpos).imp addressOf_lt
  · exact isChain_placed hwf.merged hholds
  · rw [filter_isFree_placed hholds, freeLength_eq_sum hholds]
    exact hwf.represents.count

theorem WellFormed.owns_blocks {s : Session} (hwf : WellFormed os s tiles) (p : Nat) :
    p ∈ s.live ↔ ∃ b ∈ (placed 0 tiles).map Prod.fst,
      s.heap.isFree b = false ∧ p = s.heap.allocatedSpace b := by
  rw [hwf.owns p]
  constructor
  · rintro ⟨place, tile, hmem, hused, rfl⟩
    have hbit : (s.heap.blockAt place).used = tile.used := (hwf.represents.holds _ hmem).used_eq
    exact ⟨place, List.mem_map_of_mem (f := Prod.fst) hmem, by simp [isFree, hbit, hused], rfl⟩
  · rintro ⟨b, hmem, hfree, rfl⟩
    obtain ⟨⟨place, tile⟩, hplaced, rfl⟩ := List.mem_map.mp hmem
    have hbit : (s.heap.blockAt place).used = tile.used :=
      (hwf.represents.holds _ hplaced).used_eq
    refine ⟨place, tile, hplaced, ?_, rfl⟩
    simpa [isFree, hbit] using hfree

/-- Two different used blocks share no segment. -/
theorem WellFormed.disjoint {s : Session} (hwf : WellFormed os s tiles) {p q : Nat}
    (hp : p ∈ s.live) (hq : q ∈ s.live) (hne : p ≠ q) :
    Disjoint (s.heap.segments (s.heap.blockOf p)) (s.heap.segments (s.heap.blockOf q)) := by
  obtain ⟨a, tileA, hmemA, -, rfl⟩ := (hwf.owns p).mp hp
  obtain ⟨b, tileB, hmemB, -, rfl⟩ := (hwf.owns q).mp hq
  have hlenA : (s.heap.blockAt a).length = tileA.length := (hwf.represents.holds _ hmemA).length_eq
  have hlenB : (s.heap.blockAt b).length = tileB.length := (hwf.represents.holds _ hmemB).length_eq
  rw [blockOf_allocatedSpace, blockOf_allocatedSpace, segments, segments, followingBlock,
    followingBlock, hlenA, hlenB]
  rw [Set.Ico_disjoint_Ico]
  rcases placed_apart hmemA hmemB with heq | hapart
  · obtain ⟨rfl, -⟩ := Prod.mk.inj heq
    exact absurd rfl hne
  · omega

theorem le_numberOfSegments_mul (hgeometry : Geometry os h) (size : Nat) :
    size ≤ h.numberOfSegments size * h.segmentSize := by
  have hpos : 0 < h.segmentSize := hgeometry.segment ▸ Nat.two_pow_pos _
  rw [numberOfSegments, Nat.shiftRight_eq_div_pow, ← hgeometry.segment]
  have := Nat.div_add_mod (size + h.segmentSize - 1) h.segmentSize
  have := Nat.mod_lt (size + h.segmentSize - 1) hpos
  rw [Nat.mul_comm]
  omega

/-- After every run the representation invariant holds of the blocks that start in
segment 0, of which the used ones are those handed out and not given back.
`deallocate` of these and `allocate` return, and a block handed out has room for
the header and `size` bytes and shares no segment with the others. -/
theorem reachable_invariant {s : Session} (hs : (system globals os).Reachable s) :
    (∃ blocks, s.heap.RepresentationInvariant blocks ∧
      ∀ p, p ∈ s.live ↔ ∃ b ∈ blocks, s.heap.isFree b = false ∧ p = s.heap.allocatedSpace b) ∧
    (∀ p ∈ s.live, ∃ h', s.heap.deallocate p = some h') ∧
    ∀ size, ∃ result h', s.heap.allocate globals size = some (result, h') ∧
      ∀ p, result = some p → p = h'.allocatedSpace (h'.blockOf p) ∧
        size + sizeofHeapBlock ≤ (h'.blockAt (h'.blockOf p)).length * h'.segmentSize ∧
        p ∉ s.live ∧
        ∀ q ∈ s.live, Disjoint (h'.segments (h'.blockOf p)) (h'.segments (h'.blockOf q)) := by
  obtain ⟨tiles, hwf⟩ := reachable_wellFormed hs
  refine ⟨⟨_, hwf.representationInvariant, hwf.owns_blocks⟩, fun p hp => ?_, fun size => ?_⟩
  · obtain ⟨h', -, hdeallocate, -⟩ := deallocate_eq hwf hp
    exact ⟨h', hdeallocate⟩
  · rcases allocate_wellFormed globals hwf size with
      hnone | ⟨b, length, h', tiles', hsome, hwf', hmem, hfresh, hle⟩
    · exact ⟨none, s.heap, hnone, by simp⟩
    refine ⟨_, h', hsome, fun p hp => ?_⟩
    obtain rfl := Option.some.inj hp
    have hlength : (h'.blockAt b).length = length := (hwf'.represents.holds _ hmem).length_eq
    have hblock := blockOf_allocatedSpace (h := h') b
    refine ⟨by rw [hblock], ?_, hfresh, fun q hq => ?_⟩
    · rw [hblock, hlength]
      exact (le_numberOfSegments_mul hwf'.geometry _).trans (Nat.mul_le_mul_right _ hle)
    · refine hwf'.disjoint (Set.mem_insert _ _) (Set.mem_insert_of_mem _ hq) ?_
      rintro rfl
      exact hfresh hq

def smallPages : OS := ⟨64, 64, 64, by decide⟩

/-- A heap with two committed segments of 64 bytes. -/
def smallHeap : CodeHeap :=
  ((new (fun _ => 0) fun _ => ⟨0, false, none⟩).reserve smallPages 256 128 64 0 0 true
    true).get rfl

theorem smallHeap_reserved : Reserved smallPages ⟨smallHeap, ∅⟩ :=
  .intro (by decide) (by decide) ⟨6, rfl⟩ (by decide) (Option.some_get _).symm

theorem eq_some_of_fst {result : Option (Option Nat × CodeHeap)} (hsome : result.isSome = true)
    {p : Option Nat} (hp : (result.get hsome).1 = p) : result = some (p, (result.get hsome).2) := by
  subst hp
  exact (Option.some_get hsome).symm

def oneSegment : Globals := ⟨1, Nat.one_pos⟩

/-- The first segment is handed out. -/
def halfHeap : CodeHeap := ((smallHeap.allocate oneSegment 10).get rfl).2

/-- Both segments are handed out. -/
def bothHeap : CodeHeap := ((halfHeap.allocate oneSegment 10).get rfl).2

/-- The first segment is free again, the second in use. -/
def freedHeap : CodeHeap := (bothHeap.deallocate 16).get rfl

theorem freedHeap_reachable : (system oneSegment smallPages).Reachable
    ⟨freedHeap, insert 80 (insert 16 ∅) \ {16}⟩ := by
  have h0 : (system oneSegment smallPages).Reachable ⟨halfHeap, insert 16 ∅⟩ :=
    .step (.of_init smallHeap_reserved) (.allocate (eq_some_of_fst rfl rfl))
  have hboth : halfHeap.allocate oneSegment 10 = some (some 80, bothHeap) := eq_some_of_fst rfl rfl
  have h1 := h0.step (.allocate hboth)
  exact h1.step (.deallocate (by simp) (Option.some_get rfl).symm)

/-- A block in use behind one on the free list. -/
theorem reachable_invariant_smallHeap : ∃ s : Session, s.live = {80} ∧
    s.heap.freelist = some 0 ∧ (system oneSegment smallPages).Reachable s ∧
    ∃ blocks, s.heap.RepresentationInvariant blocks := by
  obtain ⟨⟨blocks, hblocks, -⟩, -⟩ := reachable_invariant freedHeap_reachable
  refine ⟨_, ?_, rfl, freedHeap_reachable, blocks, hblocks⟩
  ext p
  simp only [Set.mem_sdiff, Set.mem_insert_iff, Set.mem_empty_iff_false, or_false,
    Set.mem_singleton_iff]
  omega

end HotSpot.CodeHeap
