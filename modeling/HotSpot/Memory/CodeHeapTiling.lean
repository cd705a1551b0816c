import HotSpot.Lib.LinkedSegment
import HotSpot.Lib.Tiling
import HotSpot.Memory.CodeHeap

/-! # The code heap as a tiling

The blocks of the heap tile the used segments, the free list links the free
blocks in address order, and the segment map chains every segment of a block
back to the block's header.
-/

namespace HotSpot.CodeHeap

open Tiling

/-! ## The segment map -/

/-- The map leads from each of the `length` segments from `start` on to `start`. -/
structure Chains (segmap : Nat → BitVec 8) (start length : Nat) : Prop where
  header : segmap start = 0
  inside : ∀ k, 0 < k → k < length →
    0 < (segmap (start + k)).toNat ∧ (segmap (start + k)).toNat ≤ k ∧ segmap (start + k) ≠ 0xFF

theorem Chains.shorten {segmap : Nat → BitVec 8} {start length length' : Nat}
    (h : Chains segmap start length) (hle : length' ≤ length) : Chains segmap start length' :=
  ⟨h.header, fun k hpos hlt => h.inside k hpos (Nat.lt_of_lt_of_le hlt hle)⟩

theorem Chains.congr {segmap segmap' : Nat → BitVec 8} {start length : Nat}
    (hlength : 0 < length)
    (heq : ∀ i, start ≤ i → i < start + length → segmap' i = segmap i)
    (h : Chains segmap start length) : Chains segmap' start length := by
  refine ⟨?_, fun k hpos hlt => ?_⟩
  · rw [heq start le_rfl (by omega)]
    exact h.header
  · rw [heq (start + k) (by omega) (by omega)]
    exact h.inside k hpos hlt

theorem markFreeLoop_apply (segmap : Nat → BitVec 8) (n p i : Nat) :
    markFreeLoop segmap n p i = if p ≤ i ∧ i < p + n then 0xFF else segmap i := by
  induction n generalizing segmap p with
  | zero => simp [markFreeLoop]
  | succ n ih =>
    rw [markFreeLoop, ih, Function.update_apply]
    grind

theorem markUsedLoop_of_not_mem {segmap : Nat → BitVec 8} {n p c i : Nat}
    (hout : i < p ∨ p + n ≤ i) : markUsedLoop segmap n p c i = segmap i := by
  induction n generalizing segmap p c with
  | zero => rfl
  | succ n ih =>
    rw [markUsedLoop, ih (by omega), Function.update_of_ne (by omega)]

/-- The byte `k` places behind the one where the loop stands with count `c`. -/
theorem markUsedLoop_inside (segmap : Nat → BitVec 8) {n k : Nat} (p c : Nat) (hk : k < n)
    (hc : c < 0xFF) :
    ∃ v, markUsedLoop segmap n p c (p + k) = BitVec.ofNat 8 v ∧
      v < 0xFF ∧ v ≤ c + k ∧ (k = 0 → v = c) ∧ (0 < k → 0 < v) := by
  induction n generalizing segmap p c k with
  | zero => omega
  | succ n ih =>
    rw [markUsedLoop]
    cases k with
    | zero =>
      rw [markUsedLoop_of_not_mem (by omega), Nat.add_zero, Function.update_self]
      exact ⟨c, rfl, hc, by omega, fun _ => rfl, by omega⟩
    | succ k =>
      obtain ⟨v, hv, hlt, hle, hzero, hpos⟩ :=
        ih (Function.update segmap p (BitVec.ofNat 8 c)) (p + 1)
          (if c + 1 = 0xFF then 1 else c + 1) (k := k) (by omega) (by split <;> omega)
      rw [Nat.add_assoc, Nat.add_comm 1 k] at hv
      refine ⟨v, hv, hlt, ?_, by omega, fun _ => ?_⟩
      · split at hle <;> omega
      · cases k with
        | zero => rw [hzero rfl]; split <;> omega
        | succ k => exact hpos (by omega)

theorem markUsedLoop_chains (segmap : Nat → BitVec 8) {n : Nat} (p : Nat) (hn : 0 < n) :
    Chains (markUsedLoop segmap n p 0) p n := by
  constructor
  · obtain ⟨v, hv, -, -, hzero, -⟩ := markUsedLoop_inside segmap p 0 hn (by omega)
    rw [Nat.add_zero] at hv
    rw [hv, hzero rfl]
    rfl
  · intro k hpos hlt
    obtain ⟨v, hv, hbound, hle, -, hvpos⟩ :=
      markUsedLoop_inside segmap p 0 hlt (by omega)
    have hnat : (BitVec.ofNat 8 v).toNat = v := by
      rw [BitVec.toNat_ofNat, Nat.mod_eq_of_lt (by omega)]
    rw [hv, hnat]
    refine ⟨hvpos hpos, by omega, fun hff => ?_⟩
    have := congrArg BitVec.toNat hff
    rw [hnat] at this
    simp at this
    omega

/-! ## What the heap holds -/

/-- The block at a place has the length and the used bit of the tile. -/
structure Holds (h : CodeHeap) (p : Nat × Tile) : Prop where
  length_eq : (h.blockAt p.1).length = p.2.length
  used_eq : (h.blockAt p.1).used = p.2.used
  chains : Chains h.segmap p.1 p.2.length

/-- The blocks of the heap are the tiles. -/
structure Tiled (h : CodeHeap) (tiles : List Tile) : Prop where
  positive : ∀ tile ∈ tiles, 0 < tile.length
  span_eq : span tiles = h.nextSegment
  next_le : h.nextSegment ≤ h.numberOfCommittedSegments
  holds : ∀ p ∈ placed 0 tiles, h.Holds p
  unused : ∀ i, h.nextSegment ≤ i → i < h.numberOfCommittedSegments → h.segmap i = 0xFF

def linkOf (h : CodeHeap) (i : Nat) : Option Nat := (h.blockAt i).link

/-- The heap holds the tiles, with the free ones on the free list. -/
structure Represents (h : CodeHeap) (tiles : List Tile) : Prop extends Tiled h tiles where
  linked : LinkedSegment h.linkOf h.freelist (freeStarts 0 tiles) none
  count : h.freeSegments = freeLength tiles

/-- The memory of the heap and how far it is in use. -/
structure Extent where
  memory : VirtualSpace
  segmentSize : Nat
  log2SegmentSize : Nat
  numberOfCommittedSegments : Nat
  nextSegment : Nat

def extent (h : CodeHeap) : Extent where
  memory := h.memory
  segmentSize := h.segmentSize
  log2SegmentSize := h.log2SegmentSize
  numberOfCommittedSegments := h.numberOfCommittedSegments
  nextSegment := h.nextSegment

/-- Two heaps that agree on the headers and the map from segment `lo` up to `hi`. -/
def AgreesOutside (h h' : CodeHeap) (lo hi : Nat) : Prop :=
  ∀ i, i < lo ∨ hi ≤ i → (h'.blockAt i).length = (h.blockAt i).length ∧
    (h'.blockAt i).used = (h.blockAt i).used ∧ h'.segmap i = h.segmap i

theorem Holds.congr {h h' : CodeHeap} {p : Nat × Tile} {lo hi : Nat}
    (hagree : h.AgreesOutside h' lo hi)
    (hpos : 0 < p.2.length) (hout : p.1 + p.2.length ≤ lo ∨ hi ≤ p.1) (hp : h.Holds p) :
    h'.Holds p := by
  obtain ⟨hlen, hused, -⟩ := hagree p.1 (by omega)
  refine ⟨hlen.trans hp.length_eq, hused.trans hp.used_eq, hp.chains.congr hpos ?_⟩
  exact fun i hle hlt => (hagree i (by omega)).2.2

/-- Replacing some of the tiles by others on the same segments. -/
theorem Tiled.replace {h h' : CodeHeap} {left right : List Tile} (middle middle' : List Tile)
    (htiled : h.Tiled (left ++ (middle ++ right)))
    (hextent : h'.extent = h.extent)
    (hspan : span middle' = span middle)
    (hpositive : ∀ tile ∈ middle', 0 < tile.length)
    (hagree : h.AgreesOutside h' (span left) (span left + span middle))
    (hholds : ∀ p ∈ placed (span left) middle', h'.Holds p) :
    h'.Tiled (left ++ (middle' ++ right)) := by
  have hnext : h'.nextSegment = h.nextSegment := congrArg Extent.nextSegment hextent
  have hcommitted : h'.numberOfCommittedSegments = h.numberOfCommittedSegments :=
    congrArg Extent.numberOfCommittedSegments hextent
  obtain ⟨hpos, hspanEq, hle, hblocks, hunused⟩ := htiled
  simp only [List.forall_mem_append] at hpos
  simp only [placed_append, List.forall_mem_append, Nat.zero_add] at hblocks
  simp only [span_append] at hspanEq
  refine ⟨?_, ?_, by omega, ?_, fun i hi hlt => ?_⟩
  · simp only [List.forall_mem_append]
    exact ⟨hpos.1, hpositive, hpos.2.2⟩
  · simp only [span_append]
    omega
  · simp only [placed_append, List.forall_mem_append, Nat.zero_add]
    refine ⟨fun p hp => ?_, hholds, fun p hp => ?_⟩
    · have hbounds := mem_placed_bounds hp
      exact (hblocks.1 p hp).congr hagree (hpos.1 _ (mem_placed_mem hp)) (Or.inl (by omega))
    · have hbounds := mem_placed_bounds hp
      rw [hspan] at hp
      exact (hblocks.2.2 p hp).congr hagree (hpos.2.2 _ (mem_placed_mem hp)) (Or.inr (by omega))
  · rw [(hagree i (by omega)).2.2]
    exact hunused i (by omega) (by omega)

/-! ## Writes to a header -/

section Setters

variable (h : CodeHeap) (i j length : Nat) (used : Bool) (link : Option Nat)

@[simp] theorem length_setLength : ((h.setLength i length).blockAt j).length =
    if j = i then length else (h.blockAt j).length := by
  by_cases heq : j = i <;> simp [setLength, setBlock, heq]

@[simp] theorem used_setLength :
    ((h.setLength i length).blockAt j).used = (h.blockAt j).used := by
  by_cases heq : j = i <;> simp [setLength, setBlock, heq]

@[simp] theorem linkOf_setLength : (h.setLength i length).linkOf = h.linkOf := by
  funext j
  by_cases heq : j = i <;> simp [linkOf, setLength, setBlock, heq]

@[simp] theorem length_setUsed :
    ((h.setUsed i used).blockAt j).length = (h.blockAt j).length := by
  by_cases heq : j = i <;> simp [setUsed, setBlock, heq]

@[simp] theorem used_setUsed : ((h.setUsed i used).blockAt j).used =
    if j = i then used else (h.blockAt j).used := by
  by_cases heq : j = i <;> simp [setUsed, setBlock, heq]

@[simp] theorem linkOf_setUsed : (h.setUsed i used).linkOf = h.linkOf := by
  funext j
  by_cases heq : j = i <;> simp [linkOf, setUsed, setBlock, heq]

@[simp] theorem length_setLink :
    ((h.setLink i link).blockAt j).length = (h.blockAt j).length := by
  by_cases heq : j = i <;> simp [setLink, setBlock, heq]

@[simp] theorem used_setLink :
    ((h.setLink i link).blockAt j).used = (h.blockAt j).used := by
  by_cases heq : j = i <;> simp [setLink, setBlock, heq]

@[simp] theorem linkOf_setLink :
    (h.setLink i link).linkOf = Function.update h.linkOf i link := by
  funext j
  by_cases heq : j = i <;> simp [linkOf, setLink, setBlock, heq]

@[simp] theorem extent_setLength : (h.setLength i length).extent = h.extent := rfl

@[simp] theorem extent_setUsed : (h.setUsed i used).extent = h.extent := rfl

@[simp] theorem extent_setLink : (h.setLink i link).extent = h.extent := rfl

@[simp] theorem extent_markSegmapAsUsed : (h.markSegmapAsUsed i j).extent = h.extent := rfl

@[simp] theorem blockAt_markSegmapAsUsed : (h.markSegmapAsUsed i j).blockAt = h.blockAt := rfl

@[simp] theorem linkOf_markSegmapAsUsed : (h.markSegmapAsUsed i j).linkOf = h.linkOf := rfl

theorem segmap_markSegmapAsUsed_of_not_mem {k : Nat} (hout : k < i ∨ i + length ≤ k) :
    (h.markSegmapAsUsed i (i + length)).segmap k = h.segmap k := by
  rw [markSegmapAsUsed, Nat.add_sub_cancel_left]
  exact markUsedLoop_of_not_mem hout

theorem chains_markSegmapAsUsed {length : Nat} (hlength : 0 < length) :
    Chains (h.markSegmapAsUsed i (i + length)).segmap i length := by
  rw [markSegmapAsUsed, Nat.add_sub_cancel_left]
  exact markUsedLoop_chains _ _ hlength

end Setters

/-! ## Merging -/

variable {h : CodeHeap} {tiles left right : List Tile} {length : Nat}

/-- The free places to the right of a tile lie behind it. -/
theorem Tiled.freeStarts_right {tile : Tile} (htiled : h.Tiled (left ++ tile :: right)) :
    ∀ i ∈ freeStarts (span left + tile.length) right, span left + tile.length ≤ i := by
  have hpos := htiled.positive
  simp only [List.forall_mem_append, List.forall_mem_cons] at hpos
  exact fun i hi => (freeStarts_bounds hpos.2.2 hi).1

theorem Tiled.freeStarts_left {tile : Tile} (htiled : h.Tiled (left ++ tile :: right)) :
    ∀ i ∈ freeStarts 0 left, i < span left := by
  have hpos := htiled.positive
  simp only [List.forall_mem_append] at hpos
  intro i hi
  have := (freeStarts_bounds hpos.1 hi).2
  omega

theorem Represents.block {tile : Tile} (hrep : h.Represents (left ++ tile :: right)) :
    h.Holds (span left, tile) :=
  hrep.holds _ (by simp)

theorem Represents.linked_split (hrep : h.Represents (left ++ ⟨length, false⟩ :: right)) :
    LinkedSegment h.linkOf h.freelist (freeStarts 0 left) (some (span left)) ∧
      LinkedSegment h.linkOf (h.linkOf (span left)) (freeStarts (span left + length) right)
        none := by
  have hlinked := hrep.linked
  simp only [freeStarts_append, freeStarts_cons_free, Nat.zero_add,
    LinkedSegment.append_iff, LinkedSegment.cons_iff] at hlinked
  obtain ⟨_, hleft, rfl, hright⟩ := hlinked
  exact ⟨hleft, hright⟩

theorem Represents.merge {length' : Nat}
    (hrep : h.Represents (left ++ ⟨length, false⟩ :: ⟨length', false⟩ :: right)) :
    (((h.setLength (span left) (length + length')).setLink (span left)
      (h.linkOf (span left + length))).markSegmapAsUsed (span left)
        (span left + (length + length'))).Represents
      (left ++ ⟨length + length', false⟩ :: right) := by
  have hpos : 0 < length := hrep.positive ⟨length, false⟩ (by simp)
  obtain ⟨hleft, hright⟩ := hrep.linked_split
  have hbehind := hrep.freeStarts_right
  have hbefore := hrep.freeStarts_left
  refine ⟨Tiled.replace [⟨length, false⟩, ⟨length', false⟩]
    [⟨length + length', false⟩] hrep.toTiled (by simp) (by simp) ?_ ?_ ?_, ?_, ?_⟩
  · simp
    omega
  · intro i hout
    have hne : i ≠ span left := by simp at hout; omega
    refine ⟨by simp [hne], by simp, segmap_markSegmapAsUsed_of_not_mem _ _ _ ?_⟩
    simpa using hout
  · rintro p hp
    obtain rfl := List.mem_singleton.mp hp
    exact ⟨by simp, by simpa using hrep.block.used_eq, chains_markSegmapAsUsed _ _ (by omega)⟩
  · simp only [freeStarts_cons_free, LinkedSegment.cons_iff] at hright hbehind
    simp only [freeStarts_append, freeStarts_cons_free, Nat.zero_add, linkOf_markSegmapAsUsed,
      linkOf_setLink, linkOf_setLength, LinkedSegment.append_iff, LinkedSegment.cons_iff]
    refine ⟨_, hleft.update fun hmem => lt_irrefl _ (hbefore _ hmem), rfl, ?_⟩
    rw [Function.update_self, ← Nat.add_assoc]
    refine hright.2.update fun hmem => ?_
    have := hbehind _ (List.mem_cons_of_mem _ hmem)
    omega
  · have := hrep.count
    simp only [freeLength_append, freeLength_cons_free] at this ⊢
    change h.freeSegments = _
    omega

/-- Merging joins the block with a free successor and does nothing otherwise. -/
theorem mergeRight_represents (hrep : h.Represents (left ++ ⟨length, false⟩ :: right)) :
    (h.mergeRight (span left)).Represents (left ++ absorb length right) := by
  obtain ⟨hleft, hright⟩ := hrep.linked_split
  have hlength := hrep.block.length_eq
  have hlink : (h.blockAt (span left)).link = (freeStarts (span left + length) right).head? :=
    hright.start_eq
  have hpos := hrep.positive
  simp only [List.forall_mem_append, List.forall_mem_cons] at hpos
  cases right with
  | nil =>
    have hsame : h.mergeRight (span left) = h := by simp [mergeRight, hlink]
    rwa [hsame, absorb]
  | cons head right =>
    obtain ⟨length', used⟩ := head
    cases used with
    | true =>
      -- The next free block, if any, lies behind the used neighbour.
      have hsame : h.mergeRight (span left) = h := by
        unfold mergeRight
        split
        next => rfl
        next l hl =>
          rw [hlink] at hl
          have hmem := List.mem_of_mem_head? hl
          have hbound := (freeStarts_bounds (List.forall_mem_cons.mp hpos.2.2).2
            (by simpa using hmem)).1
          rw [if_neg]
          simp only [followingBlock, hlength]
          have : 0 < length' := hpos.2.2 ⟨length', true⟩ (by simp)
          omega
      rw [hsame, absorb, if_pos rfl]
      exact hrep
    | false =>
      have hnext : (h.blockAt (span left)).link = some (span left + length) := by
        rw [hlink]; rfl
      have hlength' : (h.blockAt (span left + length)).length = length' :=
        (hrep.holds (span left + length, ⟨length', false⟩) (by simp)).length_eq
      have hne : span left + length ≠ span left := by
        have := hpos.2.1
        omega
      have hmerge : h.mergeRight (span left) =
          ((h.setLength (span left) (length + length')).setLink (span left)
            (h.linkOf (span left + length))).markSegmapAsUsed (span left)
              (span left + (length + length')) := by
        simp [mergeRight, hnext, followingBlock, hlength, hlength', linkOf, setLength, setLink,
          setBlock, Function.update_of_ne hne]
      rw [hmerge, absorb, if_neg (by simp)]
      exact hrep.merge

/-! ## Adding to the free list -/

/-- Setting the used bit of one block. -/
theorem Tiled.setUsed {h' : CodeHeap} {used used' : Bool}
    (htiled : h.Tiled (left ++ ⟨length, used⟩ :: right))
    (hextent : h'.extent = h.extent)
    (hsegmap : h'.segmap = h.segmap)
    (hblock : ∀ i, (h'.blockAt i).length = (h.blockAt i).length ∧
      (h'.blockAt i).used = if i = span left then used' else (h.blockAt i).used) :
    h'.Tiled (left ++ ⟨length, used'⟩ :: right) := by
  have hold : h.Holds (span left, ⟨length, used⟩) := htiled.holds _ (by simp)
  have hpos : 0 < length := htiled.positive ⟨length, used⟩ (by simp)
  refine Tiled.replace [⟨length, used⟩] [⟨length, used'⟩] htiled hextent
    (by simp) (by simpa using hpos) ?_ ?_
  · intro i hout
    have hne : i ≠ span left := by simp at hout; omega
    exact ⟨(hblock i).1, by rw [(hblock i).2, if_neg hne], by rw [hsegmap]⟩
  · rintro p hp
    obtain rfl := List.mem_singleton.mp hp
    exact ⟨(hblock _).1.trans hold.length_eq, by rw [(hblock _).2, if_pos rfl],
      hsegmap ▸ hold.chains⟩

theorem scanFreelist_eq {b fuel : Nat} {before after : List Nat} {prev cur : Option Nat}
    (hbefore : ∀ i ∈ before, i < b) (hafter : ∀ i ∈ after, b < i)
    (hlinked : LinkedSegment h.linkOf cur (before ++ after) none) (hfuel : before.length < fuel) :
    h.scanFreelist b fuel prev cur = some (before.getLast?.or prev, after.head?) := by
  induction before generalizing fuel prev cur with
  | nil =>
    obtain ⟨fuel, rfl⟩ := Nat.exists_eq_succ_of_ne_zero (Nat.ne_of_gt hfuel)
    rw [List.nil_append] at hlinked
    rw [hlinked.start_eq]
    cases after with
    | nil => rfl
    | cons head rest =>
      have := hafter head List.mem_cons_self
      rw [List.head?_cons, scanFreelist, if_neg (by omega)]
      rfl
  | cons head rest ih =>
    obtain ⟨fuel, rfl⟩ := Nat.exists_eq_succ_of_ne_zero (Nat.ne_of_gt (Nat.lt_of_le_of_lt
      (Nat.zero_le _) hfuel))
    obtain ⟨rfl, hrest⟩ := hlinked
    rw [List.forall_mem_cons] at hbefore
    rw [scanFreelist, if_pos hbefore.1]
    refine (ih hbefore.2 hrest (by simpa using hfuel)).trans ?_
    cases rest with
    | nil => rfl
    | cons second rest => simp [List.getLast?_cons]

/-- The heap with a block marked free and counted, not yet on the list. -/
def release (h : CodeHeap) (b : Nat) : CodeHeap :=
  ({ h with freeSegments := h.freeSegments + (h.blockAt b).length }).setUsed b false

theorem addToFreelist_eq (h : CodeHeap) (b : Nat) :
    h.addToFreelist b =
      match (h.release b).freelist with
      | none => some (({ h.release b with freelist := some b }).setLink b none)
      | some first =>
        match (h.release b).scanFreelist b (h.nextSegment + 1) none (some first) with
        | none => none
        | some (none, _) => some (({ (h.release b).setLink b (some first) with
            freelist := some b }).mergeRight b)
        | some (some prev, _) => some ((h.release b).insertAfter prev b) := rfl

@[simp] theorem extent_release (b : Nat) : (h.release b).extent = h.extent := rfl

@[simp] theorem linkOf_release (b : Nat) : (h.release b).linkOf = h.linkOf := by
  unfold release
  rw [linkOf_setUsed]
  rfl

/-- Once a released block is linked between the free blocks before and behind it,
the heap holds it as a free tile. -/
theorem Represents.of_release {h' : CodeHeap}
    (hrep : h.Represents (left ++ ⟨length, true⟩ :: right))
    (hextent : h'.extent = h.extent)
    (hsegmap : h'.segmap = h.segmap)
    (hblock : ∀ i, (h'.blockAt i).length = ((h.release (span left)).blockAt i).length ∧
      (h'.blockAt i).used = ((h.release (span left)).blockAt i).used)
    (hcount : h'.freeSegments = (h.release (span left)).freeSegments)
    (hlinked : LinkedSegment h'.linkOf h'.freelist
      (freeStarts 0 left ++ span left :: freeStarts (span left + length) right) none) :
    h'.Represents (left ++ ⟨length, false⟩ :: right) := by
  refine ⟨hrep.toTiled.setUsed hextent hsegmap fun i => ?_, by simpa using hlinked, ?_⟩
  · rw [(hblock i).1, (hblock i).2]
    simp [release]
  · have hlength : (h.blockAt (span left)).length = length := hrep.block.length_eq
    have := hrep.count
    simp only [freeLength_append, freeLength_cons_free, freeLength_cons_used] at this ⊢
    rw [hcount]
    change h.freeSegments + (h.blockAt (span left)).length = _
    omega

theorem absorb_of_freeStarts_eq_nil {start : Nat} (hnil : freeStarts start right = []) :
    absorb length right = ⟨length, false⟩ :: right := by
  cases right with
  | nil => rfl
  | cons head tail =>
    rw [absorb, if_pos (used_of_freeStarts_eq_nil hnil head List.mem_cons_self)]

/-- The scan stops between the free blocks before `b` and those behind it. -/
theorem Represents.scanFreelist (hrep : h.Represents (left ++ ⟨length, true⟩ :: right)) :
    (h.release (span left)).scanFreelist (span left) (h.nextSegment + 1) none h.freelist =
      some ((freeStarts 0 left).getLast?, (freeStarts (span left + length) right).head?) := by
  have hpos := hrep.positive
  simp only [List.forall_mem_append, List.forall_mem_cons] at hpos
  have hspan := hrep.span_eq
  rw [span_append] at hspan
  have hshort : (freeStarts 0 left).length < h.nextSegment + 1 := by
    have := length_freeStarts_le 0 hpos.1
    omega
  have hlinked : LinkedSegment (h.release (span left)).linkOf h.freelist
      (freeStarts 0 left ++ freeStarts (span left + length) right) none := by
    simpa using hrep.linked
  have hbehind : ∀ i ∈ freeStarts (span left + length) right, span left < i := by
    intro i hi
    have hle := hrep.freeStarts_right i hi
    have hlt := hpos.2.1
    simp only at hle hlt
    omega
  rw [scanFreelist_eq hrep.freeStarts_left hbehind hlinked hshort, Option.or_none]

theorem Represents.not_mem_right {used : Bool}
    (hrep : h.Represents (left ++ ⟨length, used⟩ :: right)) :
    span left ∉ freeStarts (span left + length) right := by
  intro hmem
  have hpos : 0 < length := hrep.positive ⟨length, used⟩ (by simp)
  have hle : span left + length ≤ span left := hrep.freeStarts_right _ hmem
  omega

/-- Adding a block with no free block before it. -/
theorem addToFreelist_first (hrep : h.Represents (left ++ ⟨length, true⟩ :: right))
    (hnil : freeStarts 0 left = []) :
    ∃ h', h.addToFreelist (span left) = some h' ∧
      h'.Represents (left ++ absorb length right) := by
  have hlinked := hrep.linked
  simp only [freeStarts_append, freeStarts_cons_used, hnil, Nat.zero_add, List.nil_append]
    at hlinked
  have hscan := hrep.scanFreelist
  rw [addToFreelist_eq]
  change ∃ h', (match h.freelist with | none => _ | some first => _) = some h' ∧ _
  rw [hlinked.start_eq] at hscan ⊢
  cases hfree : freeStarts (span left + length) right with
  | nil =>
    refine ⟨_, rfl, ?_⟩
    rw [absorb_of_freeStarts_eq_nil hfree]
    refine hrep.of_release rfl rfl (fun i => by simp) rfl ?_
    rw [hnil, hfree]
    exact ⟨rfl, by simp [linkOf_setLink]⟩
  | cons first rest =>
    rw [hfree, hnil] at hscan
    refine ⟨_, by rw [List.head?_cons] at hscan ⊢; simp only [hscan]; rfl, ?_⟩
    refine mergeRight_represents (hrep.of_release rfl rfl (fun i => by simp) rfl ?_)
    rw [hnil]
    refine ⟨rfl, ?_⟩
    have hstart := hlinked.start_eq
    rw [hfree] at hstart
    change LinkedSegment ((h.release (span left)).setLink (span left) (some first)).linkOf
      (((h.release (span left)).setLink (span left) (some first)).linkOf (span left)) _ none
    rw [linkOf_setLink, linkOf_release, Function.update_self]
    rw [hstart] at hlinked
    exact hlinked.update hrep.not_mem_right

/-- Adding a block behind the free block that starts last before it. -/
theorem addToFreelist_after {between : List Tile} {length' : Nat}
    (hrep : h.Represents (left ++ ⟨length', false⟩ :: between ++ ⟨length, true⟩ :: right))
    (hnil : freeStarts (span left + length') between = []) :
    ∃ h', h.addToFreelist (span (left ++ ⟨length', false⟩ :: between)) = some h' ∧
      h'.Represents (left ++ absorb length' (between ++ absorb length right)) := by
  have hscan := hrep.scanFreelist
  have hfrees : freeStarts 0 (left ++ ⟨length', false⟩ :: between) =
      freeStarts 0 left ++ [span left] := by simp [hnil]
  have hlinked := hrep.linked
  have hsorted := freeStarts_sorted 0 hrep.positive
  rw [freeStarts_append, hfrees, freeStarts_cons_used, Nat.zero_add, List.append_assoc,
    List.singleton_append] at hlinked hsorted
  have hbefore := hrep.freeStarts_left
  have hnot := hrep.not_mem_right
  generalize hb : span (left ++ ⟨length', false⟩ :: between) = b at *
  have hnew : b ∉ freeStarts 0 left ++ span left :: freeStarts (b + length) right := by
    rw [List.append_cons, ← hfrees, List.mem_append, not_or]
    exact ⟨fun hmem => lt_irrefl _ (hbefore _ hmem), hnot⟩
  obtain ⟨first, hfirst⟩ : ∃ first, h.freelist = some first := by
    rw [hlinked.start_eq]
    cases freeStarts 0 left <;> simp
  rw [hfrees, List.getLast?_concat, hfirst] at hscan
  refine ⟨(h.release b).insertAfter (span left) b, ?_, ?_⟩
  · rw [addToFreelist_eq]
    change (match h.freelist with | none => _ | some first => _) = _
    rw [hfirst]
    simp only [hscan]
  · have hlinks : (((h.release b).setLink b ((h.release b).linkOf (span left))).setLink
        (span left) (some b)).Represents
        ((left ++ ⟨length', false⟩ :: between) ++ ⟨length, false⟩ :: right) := by
      refine hrep.of_release (by simp) rfl (fun i => by simp [hb]) (by rw [hb]; rfl) ?_
      rw [linkOf_setLink, linkOf_setLink, linkOf_release, hfrees, hb, ← List.append_cons]
      exact hlinked.insert_after (hsorted.imp Nat.ne_of_lt) hnew
    have hmerged := mergeRight_represents hlinks
    rw [List.append_assoc, List.cons_append] at hmerged
    have hboth := mergeRight_represents hmerged
    rw [hb] at hboth
    exact hboth

theorem extent_mergeRight (a : Nat) : (h.mergeRight a).extent = h.extent := by
  unfold mergeRight
  split
  next => rfl
  next => split <;> rfl

theorem extent_addToFreelist {h' : CodeHeap} {b : Nat} (hadd : h.addToFreelist b = some h') :
    h'.extent = h.extent := by
  rw [addToFreelist_eq] at hadd
  split at hadd
  next =>
    obtain rfl := Option.some.inj hadd
    rfl
  next =>
    split at hadd
    next => simp at hadd
    next =>
      obtain rfl := Option.some.inj hadd
      rw [extent_mergeRight]
      rfl
    next =>
      obtain rfl := Option.some.inj hadd
      rw [insertAfter, extent_mergeRight, extent_mergeRight]
      rfl

/-- The used tiles of `after` are those of `before` without the one at `b`. -/
def Frees (before after : List Tile) (b : Nat) : Prop :=
  ∀ place tile, tile.used = true →
    ((place, tile) ∈ placed 0 after ↔ (place, tile) ∈ placed 0 before ∧ place ≠ b)

theorem Tiled.frees (htiled : h.Tiled (left ++ ⟨length, true⟩ :: right)) :
    Frees (left ++ ⟨length, true⟩ :: right) (left ++ absorb length right) (span left) := by
  intro place tile hused
  have hpos := htiled.positive
  simp only [List.forall_mem_append, List.forall_mem_cons] at hpos
  have hleft : (place, tile) ∈ placed 0 left → place ≠ span left := by
    rintro hmem rfl
    have hlt := hpos.1 tile (mem_placed_mem hmem)
    have := mem_placed_bounds hmem
    omega
  have hright : (place, tile) ∈ placed (span left + length) right → place ≠ span left := by
    rintro hmem rfl
    have hlt : 0 < length := hpos.2.1
    have := mem_placed_bounds hmem
    omega
  simp only [placed_append, placed_cons, Nat.zero_add, List.mem_append, List.mem_cons,
    mem_placed_absorb_used hused]
  grind

/-- Adding a block to the free list frees it, merges it with its free neighbours
and touches nothing else. -/
theorem addToFreelist_represents (hrep : h.Represents (left ++ ⟨length, true⟩ :: right))
    (hadj : NoAdjacentFree (left ++ ⟨length, true⟩ :: right)) :
    ∃ h' tiles, h.addToFreelist (span left) = some h' ∧ h'.Represents tiles ∧
      NoAdjacentFree tiles ∧ Frees (left ++ ⟨length, true⟩ :: right) tiles (span left) ∧
      ∀ m, (∀ tile ∈ left ++ ⟨length, true⟩ :: right, m ≤ tile.length) →
        ∀ tile ∈ tiles, m ≤ tile.length := by
  obtain ⟨hleft, hright, -⟩ := List.isChain_append.mp hadj
  have hbehind : NoAdjacentFree (absorb length right) := noAdjacentFree_absorb hright.tail
  rcases List.eq_nil_or_concat (freeStarts 0 left) with hnil | ⟨before, last, hlast⟩
  · obtain ⟨h', hadd, hrep'⟩ := addToFreelist_first hrep hnil
    refine ⟨h', _, hadd, hrep', NoAdjacentFree.append hleft hbehind fun tile htile => ?_,
      hrep.frees, fun m hle => ?_⟩
    · exact used_of_freeStarts_eq_nil hnil tile (List.mem_of_getLast? htile)
    · simp only [List.forall_mem_append, List.forall_mem_cons] at hle ⊢
      exact ⟨hle.1, le_length_absorb hle.2.1 hle.2.2⟩
  · rw [List.concat_eq_append] at hlast
    obtain ⟨left, between, length', rfl, rfl, -, hnil⟩ := freeStarts_split hlast
    rw [Nat.zero_add] at hnil
    obtain ⟨h', hadd, hrep'⟩ := addToFreelist_after hrep hnil
    have hused := used_of_freeStarts_eq_nil hnil
    refine ⟨h', _, hadd, hrep', ?_, fun place tile htile => ?_, fun m hle => ?_⟩
    · refine NoAdjacentFree.append (List.isChain_append.mp hleft).1 ?_
        (NoAdjacentFree.last_used hleft)
      refine noAdjacentFree_absorb (NoAdjacentFree.append (noAdjacentFree_of_used hused) hbehind ?_)
      exact fun tile htile => hused tile (List.mem_of_getLast? htile)
    · rw [← hrep.frees place tile htile]
      have hne : tile ≠ ⟨length', false⟩ := by
        rintro rfl
        simp at htile
      simp [mem_placed_absorb_used htile, hne]
    · simp only [List.forall_mem_append, List.forall_mem_cons] at hle ⊢
      refine ⟨hle.1.1, le_length_absorb hle.1.2.1 ?_⟩
      rw [List.forall_mem_append]
      exact ⟨hle.1.2.2, le_length_absorb hle.2.1 hle.2.2⟩

/-- The tiles of a heap are determined by its blocks. -/
theorem placed_unique {start : Nat} {tiles tiles' : List Tile} (hspan : span tiles = span tiles')
    (hpos : ∀ tile ∈ tiles, 0 < tile.length) (hpos' : ∀ tile ∈ tiles', 0 < tile.length)
    (hholds : ∀ p ∈ placed start tiles, h.Holds p)
    (hholds' : ∀ p ∈ placed start tiles', h.Holds p) : tiles = tiles' := by
  induction tiles generalizing start tiles' with
  | nil =>
    cases tiles' with
    | nil => rfl
    | cons head' tail' =>
      have hlt := hpos' head' (by simp)
      simp only [span_nil, span_cons] at hspan
      omega
  | cons head tail ih =>
    cases tiles' with
    | nil =>
      have hlt := hpos head (by simp)
      simp only [span_nil, span_cons] at hspan
      omega
    | cons head' tail' =>
      rw [List.forall_mem_cons] at hpos hpos'
      rw [placed_cons, List.forall_mem_cons] at hholds hholds'
      have hhead : head = head' := by
        have hlength := hholds.1.length_eq.symm.trans hholds'.1.length_eq
        have hused := hholds.1.used_eq.symm.trans hholds'.1.used_eq
        cases head
        cases head'
        simp_all
      subst hhead
      simp only [span_cons, Nat.add_left_cancel_iff] at hspan
      rw [ih hspan hpos.2 hpos'.2 hholds.2 hholds'.2]

theorem Represents.unique {tiles tiles' : List Tile} (hrep : h.Represents tiles)
    (hrep' : h.Represents tiles') : tiles = tiles' :=
  placed_unique (hrep.span_eq.trans hrep'.span_eq.symm) hrep.positive hrep'.positive hrep.holds
    hrep'.holds

end HotSpot.CodeHeap
