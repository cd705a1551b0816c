import HotSpot.Memory.BlockOffsetTable
import Mathlib

/-! # The table of a contiguous space

Blocks are allocated one behind the other from the bottom of the space. The
table is only written when a block reaches past the next card that has no entry
yet, so that it always lags behind the top of the space by less than a card.
-/

namespace HotSpot

namespace BlockOffset

open Tiling

/-- `BlockOffsetArrayContigSpace`. -/
structure ContigTable where
  array : Nat → Nat
  nextOffsetThreshold : Nat
  nextOffsetIndex : Nat

namespace ContigTable

variable (g : Cover)

def initializeThreshold (t : ContigTable) : ContigTable :=
  { t with
    nextOffsetIndex := g.bottomCard + 1
    nextOffsetThreshold := g.addressForIndex (g.bottomCard + 1) }

def zeroBottomEntry (t : ContigTable) : ContigTable :=
  { t with array := Function.update t.array g.bottomCard 0 }

/-- The end of `alloc_block_work`: the new index and threshold, and what it asserts of the
entries from `origNextOffsetIndex` on. -/
def advanceThreshold (blkStart blkEnd origNextOffsetIndex : Nat) (array : Nat → Nat) :
    Except Failure ContigTable := do
  let endIndex := g.cardOf (blkEnd - 1)
  let nextOffsetThreshold := g.addressForIndex endIndex + g.nWords
  vmAssert (blkEnd ≤ nextOffsetThreshold) "Incorrent offset threshold"
  let boundary := g.addressForIndex (g.cardOf blkStart)
  vmAssert ((array origNextOffsetIndex = 0 ∧ blkStart = boundary) ∨
    (0 < array origNextOffsetIndex ∧ array origNextOffsetIndex ≤ g.nWords))
    "offset array should have been set"
  vmAssert (∀ j ∈ List.range' (origNextOffsetIndex + 1) (endIndex - origNextOffsetIndex),
    0 < array j ∧ array j ≤ (g.nWords + nPowers - 1) % 2 ^ 8) "offset array should have been set"
  return ⟨array, nextOffsetThreshold, endIndex + 1⟩

def allocBlockWork (blkStart blkEnd : Nat) (t : ContigTable) : Except Failure ContigTable := do
  vmAssert (blkStart ≠ 0 ∧ blkStart < blkEnd) "phantom block"
  vmAssert (t.nextOffsetThreshold < blkEnd) "should be past threshold"
  vmAssert (blkStart ≤ t.nextOffsetThreshold) "blk_start should be at or before threshold"
  vmAssert (t.nextOffsetThreshold - blkStart ≤ g.nWords)
    "offset should be <= BlockOffsetSharedArray::N"
  vmAssert (g.IsInReserved blkStart) "reference must be into the heap"
  vmAssert (g.IsInReserved (blkEnd - 1)) "limit must be within the heap"
  vmAssert (t.nextOffsetThreshold = g.reservedStart + t.nextOffsetIndex * g.nWords)
    "index must agree with threshold"
  let array ← setOffsetArray g t.nextOffsetIndex t.nextOffsetThreshold blkStart t.array
  let endIndex := g.cardOf (blkEnd - 1)
  let array ←
    if t.nextOffsetIndex + 1 ≤ endIndex then
      setRemainderToPointToStart g (g.addressForIndex (t.nextOffsetIndex + 1))
        (g.addressForIndex endIndex + g.nWords) array
    else .ok array
  advanceThreshold g blkStart blkEnd t.nextOffsetIndex array

def allocBlock (blkStart blkEnd : Nat) (t : ContigTable) : Except Failure ContigTable :=
  if t.nextOffsetThreshold < blkEnd then allocBlockWork g blkStart blkEnd t else .ok t

def blockStartUnsafe (blockSize : Nat → Nat) (fuel : Nat) (t : ContigTable) (addr : Nat) :
    Except Failure Nat := do
  vmAssert (g.byteAddr g.bottom ≤ addr ∧ addr < g.byteAddr g.limit)
    "addr must be covered by this Array"
  let index := min (g.indexFor addr) (t.nextOffsetIndex - 1)
  let far ← goBackLoop g (fun offset => g.nWords < offset) t.array fuel
    (g.addressForIndex index) index (t.array index)
  let near ← goBackOneLoop g t.array fuel far.1 far.2.1 far.2.2
  vmAssert (near.2.2 < g.nWords) "offset too large"
  walkLoop g blockSize addr fuel (near.1 - near.2.2) (near.1 - near.2.2)

/-- The table of an empty space; `array` is what its memory held before. -/
def emptySpace (array : Nat → Nat) : ContigTable :=
  initializeThreshold g (zeroBottomEntry g ⟨array, 0, 0⟩)

/-- `alloc_block` for consecutive blocks, the first of them at `start`. -/
def allocBlocks : Nat → List Tile → ContigTable → Except Failure ContigTable
  | _, [], t => .ok t
  | start, tile :: tiles, t => do
      let t ← allocBlock g start (start + tile.length) t
      allocBlocks (start + tile.length) tiles t

/-- The table as it is after the blocks `tiles`, with the space filled up to `top`. -/
structure Filled (tiles : List Tile) (t : ContigTable) : Prop where
  threshold : t.nextOffsetThreshold = g.addressForIndex t.nextOffsetIndex
  next : t.nextOffsetIndex = g.cardOf (max g.bottom (g.bottom + span tiles - 1)) + 1
  bottomEntry : t.array g.bottomCard = 0
  sound : Sound g tiles t.nextOffsetIndex t.array
  oneBack : OneBack g t.nextOffsetIndex t.array

variable {g} {tiles : List Tile} {t : ContigTable}

namespace Filled

theorem bottomCard_lt (hfilled : Filled g tiles t) : g.bottomCard < t.nextOffsetIndex := by
  have hmono := g.cardOf_mono (le_max_left g.bottom (g.bottom + span tiles - 1))
  rw [hfilled.next]
  exact Nat.lt_succ_iff.mpr hmono

/-- The last card with an entry starts in front of the top, or is the first of an empty space. -/
theorem last_le (hfilled : Filled g tiles t) :
    g.addressForIndex (t.nextOffsetIndex - 1) ≤ max g.bottom (g.bottom + span tiles - 1) := by
  have hstart := g.reservedStart_le
  rw [hfilled.next, Nat.add_sub_cancel]
  exact g.addressForIndex_cardOf_le (hstart.trans (le_max_left _ _))

theorem top_le (hfilled : Filled g tiles t) : g.bottom + span tiles ≤ t.nextOffsetThreshold := by
  have hstart := g.reservedStart_le
  have hlt := g.lt_addressForIndex_cardOf
    (hstart.trans (le_max_left g.bottom (g.bottom + span tiles - 1)))
  rw [hfilled.threshold, hfilled.next, Cover.addressForIndex_succ]
  omega

theorem threshold_sub_le (hfilled : Filled g tiles t) :
    t.nextOffsetThreshold - (g.bottom + span tiles) ≤ g.nWords := by
  have hlast := hfilled.last_le
  have hpos := hfilled.bottomCard_lt
  have hsucc := g.addressForIndex_succ (t.nextOffsetIndex - 1)
  rw [Nat.sub_add_cancel (by omega)] at hsucc
  rw [hfilled.threshold]
  omega

/-- A card that has an entry and starts behind the top is the first of the space. -/
theorem eq_bottomCard (hfilled : Filled g tiles t) {card : Nat} (hcard : card < t.nextOffsetIndex)
    (htop : g.bottom + span tiles ≤ g.addressForIndex card) :
    card = g.bottomCard ∧ span tiles = 0 := by
  have hlast := hfilled.last_le
  have hle := g.addressForIndex_le_iff.mpr (by omega : card ≤ t.nextOffsetIndex - 1)
  have heq : g.addressForIndex card = g.addressForIndex g.bottomCard := by
    rw [g.addressForIndex_bottomCard]
    omega
  have h1 := g.addressForIndex_le_iff.mp heq.le
  have h2 := g.addressForIndex_le_iff.mp heq.ge
  rw [g.addressForIndex_bottomCard] at heq
  omega

end Filled

theorem filled_emptySpace (array : Nat → Nat) : Filled g [] (emptySpace g array) where
  threshold := rfl
  next := by
    rw [span_nil, max_eq_left (by omega)]
    rfl
  bottomEntry := Function.update_self ..
  sound := fun place tile hmem => by simp at hmem
  oneBack := fun card hcard hlow => by
    have hindex : (emptySpace g array).nextOffsetIndex = g.bottomCard + 1 := rfl
    omega

/-! ## Allocating a block -/

/-- The table after a block from `top` to `limit` that reaches past the threshold. -/
def advanced (g : Cover) (top limit : Nat) (t : ContigTable) : ContigTable :=
  { array := pointingBack g t.nextOffsetIndex (g.cardOf (limit - 1))
      (Function.update t.array t.nextOffsetIndex (t.nextOffsetThreshold - top))
    nextOffsetThreshold := g.addressForIndex (g.cardOf (limit - 1)) + g.nWords
    nextOffsetIndex := g.cardOf (limit - 1) + 1 }

theorem pointingBack_base {base endCard : Nat} {array : Nat → Nat} :
    pointingBack g base endCard array base = array base := by
  rw [pointingBack, if_neg (by omega)]

theorem pointingBack_of_lt {base endCard card : Nat} {array : Nat → Nat} (hcard : card < base) :
    pointingBack g base endCard array card = array card := by
  rw [pointingBack, if_neg (by omega)]

theorem pointingBack_of_mem {base endCard card : Nat} {array : Nat → Nat} (hlow : base < card)
    (hhigh : card ≤ endCard) :
    pointingBack g base endCard array card = g.nWords + Nat.log 16 (card - base) := by
  rw [pointingBack, if_pos ⟨hlow, hhigh⟩]

theorem advanced_of_lt {top limit card : Nat} (hcard : card < t.nextOffsetIndex) :
    (advanced g top limit t).array card = t.array card :=
  (pointingBack_of_lt hcard).trans (Function.update_of_ne (by omega) _ _)

theorem advanced_next {top limit : Nat} :
    (advanced g top limit t).array t.nextOffsetIndex = t.nextOffsetThreshold - top :=
  pointingBack_base.trans (Function.update_self ..)

theorem advanced_of_gt {top limit card : Nat} (hlow : t.nextOffsetIndex < card)
    (hhigh : card < g.cardOf (limit - 1) + 1) :
    (advanced g top limit t).array card =
      g.nWords + Nat.log 16 (card - t.nextOffsetIndex) :=
  pointingBack_of_mem hlow (by omega)

section Allocate

variable {limit : Nat}

/-- The assertions in front of the first entry hold. -/
theorem Filled.allocBlockWork_head (hfilled : Filled g tiles t) (hlimit : limit ≤ g.limit)
    (hpos : g.bottom + span tiles < limit) (hpast : t.nextOffsetThreshold < limit) :
    allocBlockWork g (g.bottom + span tiles) limit t =
      (setRemainderToPointToStartIncl g (t.nextOffsetIndex + 1) (g.cardOf (limit - 1))
        (Function.update t.array t.nextOffsetIndex
          (t.nextOffsetThreshold - (g.bottom + span tiles))) >>=
        advanceThreshold g (g.bottom + span tiles) limit t.nextOffsetIndex) := by
  have hheap := g.heapStart_pos
  have hheap' := g.heapStart_le
  have hstart := g.reservedStart_le
  have htop := hfilled.top_le
  have hindex : t.nextOffsetThreshold = g.reservedStart + t.nextOffsetIndex * g.nWords := by
    rw [hfilled.threshold, g.addressForIndex_eq, Nat.mul_comm]
  rw [allocBlockWork, vmAssert_of ⟨by omega, hpos⟩, vmAssert_of hpast, vmAssert_of htop,
    vmAssert_of hfilled.threshold_sub_le,
    vmAssert_of (g.isInReserved_of_mem (by omega) (by omega)),
    vmAssert_of (g.isInReserved_of_mem (by omega) (by omega)), vmAssert_of hindex,
    setOffsetArray_eq htop hfilled.threshold_sub_le]
  simp only [ok_bind]
  split
  next hmore => rw [setRemainderToPointToStart_cards hmore]
  next hone => rw [setRemainderToPointToStartIncl, if_pos (by omega), ok_bind]

theorem Filled.allocBlockWork_eq (hfilled : Filled g tiles t) (hlimit : limit ≤ g.limit)
    (hpos : g.bottom + span tiles < limit) (hpast : t.nextOffsetThreshold < limit)
    (hfits : g.cardOf (limit - 1) < t.nextOffsetIndex + 16 ^ 7) :
    allocBlockWork g (g.bottom + span tiles) limit t =
      .ok (advanced g (g.bottom + span tiles) limit t) := by
  have hstart := g.reservedStart_le
  have hwords := g.nWords_le
  have htop := hfilled.top_le
  have hlast := g.lt_addressForIndex_cardOf (by omega : g.reservedStart ≤ limit - 1)
  have hsub := hfilled.threshold_sub_le
  rw [hfilled.allocBlockWork_head hlimit hpos hpast,
    setRemainderToPointToStartIncl_eq hfilled.bottomCard_lt.le
      (by rw [Function.update_self]; exact hsub) hfits, ok_bind, advanceThreshold]
  simp only
  rw [vmAssert_of (by omega), ok_bind, vmAssert_of, ok_bind, vmAssert_of, ok_bind]
  · rfl
  · intro j hj
    rw [List.mem_range'_1] at hj
    have hlog : Nat.log 16 (j - t.nextOffsetIndex) < 7 :=
      Nat.log_lt_of_lt_pow (by omega) (by omega)
    have hpos := g.nWords_pos
    rw [pointingBack_of_mem (by omega) (by omega), nPowers, Nat.mod_eq_of_lt (by omega)]
    omega
  · rw [pointingBack_base, Function.update_self]
    by_cases hzero : t.nextOffsetThreshold - (g.bottom + span tiles) = 0
    · left
      have heq : g.bottom + span tiles = g.addressForIndex t.nextOffsetIndex := by
        rw [← hfilled.threshold]
        omega
      exact ⟨hzero, by rw [heq, Cover.cardOf_addressForIndex]⟩
    · right
      omega

/-- A block that starts too many cards needs a power that an `int` does not hold. -/
theorem Filled.allocBlockWork_undefined (hfilled : Filled g tiles t) (hlimit : limit ≤ g.limit)
    (hpos : g.bottom + span tiles < limit) (hpast : t.nextOffsetThreshold < limit)
    (hlong : t.nextOffsetIndex + 16 ^ 7 ≤ g.cardOf (limit - 1)) :
    allocBlockWork g (g.bottom + span tiles) limit t = .error .undefinedShift := by
  rw [hfilled.allocBlockWork_head hlimit hpos hpast,
    setRemainderToPointToStartIncl_undefined hfilled.bottomCard_lt.le
      (by rw [Function.update_self]; exact hfilled.threshold_sub_le) hlong]
  rfl

end Allocate

section Step

variable {tile : Tile}

theorem mem_placed_snoc {start place : Nat} {other : Tile} :
    (place, other) ∈ placed start (tiles ++ [tile]) ↔
      (place, other) ∈ placed start tiles ∨ (place = start + span tiles ∧ other = tile) := by
  simp

/-- The block needs no entry: it ends before the next card. -/
theorem Filled.stay (hfilled : Filled g tiles t) (hpos : 0 < tile.length)
    (hstay : g.bottom + span tiles + tile.length ≤ t.nextOffsetThreshold) :
    Filled g (tiles ++ [tile]) t where
  threshold := hfilled.threshold
  next := by
    have hstart := g.reservedStart_le
    have hnext := hfilled.next
    have hmono : g.cardOf (max g.bottom (g.bottom + span tiles - 1)) ≤
        g.cardOf (max g.bottom (g.bottom + span (tiles ++ [tile]) - 1)) :=
      g.cardOf_mono (by simp only [span_append]; omega)
    have hlast : g.cardOf (max g.bottom (g.bottom + span (tiles ++ [tile]) - 1)) <
        t.nextOffsetIndex := by
      rw [← g.addressForIndex_lt_iff, ← hfilled.threshold]
      have hle := g.addressForIndex_cardOf_le
        (hstart.trans (le_max_left g.bottom (g.bottom + span (tiles ++ [tile]) - 1)))
      simp only [span_append, span_cons, span_nil] at hle ⊢
      omega
    omega
  bottomEntry := hfilled.bottomEntry
  sound := by
    intro place other hmem card hcard hlow hhigh
    rcases mem_placed_snoc.mp hmem with hmem | ⟨rfl, rfl⟩
    · exact hfilled.sound place other hmem card hcard hlow hhigh
    · obtain ⟨rfl, hspan⟩ := hfilled.eq_bottomCard hcard hlow
      rw [hfilled.bottomEntry, hspan]
      exact Or.inl ⟨g.nWords_pos, g.addressForIndex_bottomCard.symm⟩
  oneBack := hfilled.oneBack

theorem Filled.advanced_sound (hfilled : Filled g tiles t)
    (hfits : g.cardOf (g.bottom + span tiles + tile.length - 1) < t.nextOffsetIndex + 16 ^ 7) :
    Sound g (tiles ++ [tile]) (g.cardOf (g.bottom + span tiles + tile.length - 1) + 1)
      (advanced g (g.bottom + span tiles) (g.bottom + span tiles + tile.length) t).array := by
  intro place other hmem card hcard hlow hhigh
  have htop := hfilled.top_le
  have hbottom := hfilled.bottomCard_lt
  rcases lt_trichotomy card t.nextOffsetIndex with hold | hnext | hnew
  · -- cards that had an entry keep it
    rw [advanced_of_lt hold]
    rcases mem_placed_snoc.mp hmem with hmem | ⟨rfl, rfl⟩
    · exact hfilled.sound place other hmem card hold hlow hhigh
    · obtain ⟨rfl, hspan⟩ := hfilled.eq_bottomCard hold hlow
      rw [hfilled.bottomEntry, hspan]
      exact Or.inl ⟨g.nWords_pos, g.addressForIndex_bottomCard.symm⟩
  all_goals
    obtain ⟨rfl, rfl⟩ : place = g.bottom + span tiles ∧ other = tile := by
      refine (mem_placed_snoc.mp hmem).resolve_left fun hmem => ?_
      have hbounds := mem_placed_bounds hmem
      have haddr := g.addressForIndex_le_iff.mpr (by omega : t.nextOffsetIndex ≤ card)
      rw [hfilled.threshold] at htop
      omega
  · subst hnext
    rw [advanced_next]
    have hsub := hfilled.threshold_sub_le
    rw [hfilled.threshold] at htop hsub ⊢
    rcases Nat.lt_or_eq_of_le hsub with hlt | heq
    · exact Or.inl ⟨hlt, by omega⟩
    · exact Or.inr ⟨0, by decide, heq, by rw [Nat.pow_zero]; omega⟩
  · rw [advanced_of_gt hnew hcard]
    exact entryFor_pointingBack hbottom.le hnew (by omega)

theorem Filled.advanced_oneBack (hfilled : Filled g tiles t) {limit : Nat} :
    OneBack g (g.cardOf (limit - 1) + 1) (advanced g (g.bottom + span tiles) limit t).array := by
  intro card hcard hlow hback
  rcases lt_trichotomy card t.nextOffsetIndex with hold | rfl | hnew
  · rw [advanced_of_lt hold] at hback
    rw [advanced_of_lt (by omega)]
    exact hfilled.oneBack card hold hlow hback
  · -- the block starts a whole card in front of the threshold, so it is the first
    rw [advanced_next, hfilled.threshold] at hback
    rw [advanced_of_lt (by omega)]
    have hpos := g.nWords_pos
    have hsucc := g.addressForIndex_succ (t.nextOffsetIndex - 1)
    rw [Nat.sub_add_cancel (by omega)] at hsucc
    obtain ⟨hcard, -⟩ := @Filled.eq_bottomCard g tiles t hfilled (t.nextOffsetIndex - 1)
      (by omega) (by omega)
    rw [hcard, hfilled.bottomEntry]
    exact Nat.zero_le _
  · rw [advanced_of_gt hnew hcard] at hback
    have hlog : Nat.log 16 (card - t.nextOffsetIndex) = 0 := by omega
    rcases Nat.lt_or_eq_of_le (by omega : t.nextOffsetIndex ≤ card - 1) with hprev | hprev
    · rw [advanced_of_gt hprev (by omega)]
      have hmono : Nat.log 16 (card - 1 - t.nextOffsetIndex) ≤
          Nat.log 16 (card - t.nextOffsetIndex) := Nat.log_mono_right (by omega)
      omega
    · rw [← hprev, advanced_next]
      exact hfilled.threshold_sub_le

theorem Filled.advance (hfilled : Filled g tiles t) (hpos : 0 < tile.length)
    (hfits : g.cardOf (g.bottom + span tiles + tile.length - 1) < t.nextOffsetIndex + 16 ^ 7) :
    Filled g (tiles ++ [tile])
      (advanced g (g.bottom + span tiles) (g.bottom + span tiles + tile.length) t) where
  threshold := (g.addressForIndex_succ _).symm
  next := by
    rw [span_append, span_cons, span_nil, max_eq_right (by omega)]
    simp only [advanced, Nat.add_zero, Nat.add_assoc]
  bottomEntry := by
    have hbottom := hfilled.bottomCard_lt
    rw [advanced_of_lt hbottom]
    exact hfilled.bottomEntry
  sound := hfilled.advanced_sound hfits
  oneBack := hfilled.advanced_oneBack

/-- The cards that a block at `start` is the first to reach are at most `2 ^ 28`. -/
def Fits (g : Cover) (start limit : Nat) : Prop :=
  g.cardOf (limit - 1) ≤ g.cardOf (max g.bottom (start - 1)) + 2 ^ 28

theorem Filled.fits_iff (hfilled : Filled g tiles t) {limit : Nat} :
    Fits g (g.bottom + span tiles) limit ↔ g.cardOf (limit - 1) < t.nextOffsetIndex + 16 ^ 7 := by
  rw [Fits, hfilled.next]
  omega

/-- One call of `alloc_block`. -/
theorem Filled.step (hfilled : Filled g tiles t) (hpos : 0 < tile.length)
    (hlimit : g.bottom + span tiles + tile.length ≤ g.limit)
    (hfits : Fits g (g.bottom + span tiles) (g.bottom + span tiles + tile.length)) :
    ∃ t', allocBlock g (g.bottom + span tiles) (g.bottom + span tiles + tile.length) t = .ok t' ∧
      Filled g (tiles ++ [tile]) t' := by
  rw [hfilled.fits_iff] at hfits
  rw [allocBlock]
  split
  next hpast =>
    exact ⟨_, hfilled.allocBlockWork_eq hlimit (by omega) hpast hfits, hfilled.advance hpos hfits⟩
  next hstay => exact ⟨t, rfl, hfilled.stay hpos (by omega)⟩

theorem Filled.step_undefined (hfilled : Filled g tiles t) (hpos : 0 < tile.length)
    (hlimit : g.bottom + span tiles + tile.length ≤ g.limit)
    (hlong : ¬Fits g (g.bottom + span tiles) (g.bottom + span tiles + tile.length)) :
    allocBlock g (g.bottom + span tiles) (g.bottom + span tiles + tile.length) t =
      .error .undefinedShift := by
  have hstart := g.reservedStart_le
  rw [hfilled.fits_iff] at hlong
  have hpast : t.nextOffsetThreshold < g.bottom + span tiles + tile.length := by
    rw [hfilled.threshold, Cover.addressForIndex_lt_iff_le_cardOf g (by omega)]
    omega
  rw [allocBlock, if_pos hpast]
  exact hfilled.allocBlockWork_undefined hlimit (by omega) hpast (by omega)

end Step

/-! ## Whole runs -/

theorem allocBlocks_ok {rest : List Tile} (hfilled : Filled g tiles t)
    (hpos : ∀ tile ∈ rest, 0 < tile.length)
    (hlimit : g.bottom + span tiles + span rest ≤ g.limit)
    (hfits : ∀ place tile, (place, tile) ∈ placed (g.bottom + span tiles) rest →
      Fits g place (place + tile.length)) :
    ∃ t', allocBlocks g (g.bottom + span tiles) rest t = .ok t' ∧ Filled g (tiles ++ rest) t' := by
  induction rest generalizing tiles t with
  | nil => exact ⟨t, rfl, by rwa [List.append_nil]⟩
  | cons tile rest ih =>
    rw [List.forall_mem_cons] at hpos
    rw [span_cons] at hlimit
    obtain ⟨t', hstep, hfilled'⟩ := hfilled.step hpos.1 (by omega)
      (hfits _ tile List.mem_cons_self)
    have htop : g.bottom + span (tiles ++ [tile]) = g.bottom + span tiles + tile.length := by
      rw [span_append, span_cons, span_nil]
      omega
    obtain ⟨last, hrun, hlast⟩ := ih hfilled' hpos.2 (by rw [htop]; omega) (by
      rw [htop]
      exact fun place other hmem => hfits place other (List.mem_cons_of_mem _ hmem))
    refine ⟨last, ?_, by rwa [List.append_assoc] at hlast⟩
    rw [allocBlocks, hstep, ok_bind, ← htop, hrun]

/-- A run that comes to its end has met only blocks that fit. -/
theorem fits_of_allocBlocks_ok {rest : List Tile} {last : ContigTable}
    (hfilled : Filled g tiles t) (hpos : ∀ tile ∈ rest, 0 < tile.length)
    (hlimit : g.bottom + span tiles + span rest ≤ g.limit)
    (hrun : allocBlocks g (g.bottom + span tiles) rest t = .ok last) :
    ∀ place tile, (place, tile) ∈ placed (g.bottom + span tiles) rest →
      Fits g place (place + tile.length) := by
  induction rest generalizing tiles t with
  | nil => intro place tile hmem; simp at hmem
  | cons tile rest ih =>
    rw [List.forall_mem_cons] at hpos
    rw [span_cons] at hlimit
    have htop : g.bottom + span (tiles ++ [tile]) = g.bottom + span tiles + tile.length := by
      rw [span_append, span_cons, span_nil]
      omega
    rw [allocBlocks] at hrun
    by_cases hhead : Fits g (g.bottom + span tiles) (g.bottom + span tiles + tile.length)
    · obtain ⟨t', hstep, hfilled'⟩ := hfilled.step hpos.1 (by omega) hhead
      rw [hstep, ok_bind, ← htop] at hrun
      intro place other hmem
      rcases List.mem_cons.mp hmem with heq | hmem
      · obtain ⟨rfl, rfl⟩ := Prod.mk.inj heq
        exact hhead
      · rw [← htop] at hmem
        exact ih hfilled' hpos.2 (by rw [htop]; omega) hrun place other hmem
    · rw [hfilled.step_undefined hpos.1 (by omega) hhead] at hrun
      cases hrun

theorem Filled.blockStartUnsafe_ok (hfilled : Filled g tiles t) {blockSize : Nat → Nat}
    (hsize : TrueSizes g tiles blockSize) (hlimit : g.bottom + span tiles ≤ g.limit)
    {place addr fuel : Nat} (hblock : BlockAt g tiles place addr)
    (hfuel : t.nextOffsetIndex + tiles.length ≤ fuel) :
    blockStartUnsafe g blockSize fuel t addr = .ok place := by
  have hlow := hblock.bottom_le
  have hhigh := hblock.lt_span
  have hstart := g.reservedStart_le
  have hbottom := hfilled.bottomCard_lt
  have hindex : g.bottomCard ≤ g.indexFor addr := by
    rw [g.indexFor_eq_cardOf]
    exact g.cardOf_mono hlow
  have hmin : g.addressForIndex (min (g.indexFor addr) (t.nextOffsetIndex - 1)) ≤
      addr / g.heapWordSize := by
    have hcard := g.addressForIndex_cardOf_le (hstart.trans hlow)
    rw [← g.indexFor_eq_cardOf] at hcard
    exact (g.addressForIndex_le_iff.mpr (min_le_left _ _)).trans hcard
  rw [blockStartUnsafe, vmAssert_of ⟨g.byteAddr_le_iff.mpr hlow,
    g.lt_byteAddr_iff.mpr (by omega)⟩, ok_bind]
  simp only
  obtain ⟨far, hfar, hfarLow, hfarStop, hfarEq⟩ := @goBackLoop_ok g tiles _ _ hfilled.sound
    (fun offset => g.nWords < offset) (fun offset hgo => (of_decide_eq_true hgo).le) fuel
    (min (g.indexFor addr) (t.nextOffsetIndex - 1)) (by omega) (by omega) (by omega) (by omega)
  have hfarAddr := g.addressForIndex_le_iff.mpr hfar
  obtain ⟨near, hnear, hnearLow, hnearStop, hnearEq⟩ := goBackOneLoop_ok hfilled.sound
    hfilled.oneBack (by omega : far < t.nextOffsetIndex) hfarLow (by omega) (by omega : far < fuel)
    (not_lt.mp (of_decide_eq_false hfarStop))
  have hnearAddr := g.addressForIndex_le_iff.mpr hnear
  rw [hfarEq, ok_bind, hnearEq, ok_bind, vmAssert_of hnearStop, ok_bind]
  exact walkLoop_from_card hfilled.sound hsize (by omega) hnearLow hnearStop (by omega) hblock
    (by omega)

/-- What is expected of a table after the blocks `tiles`. -/
def FindsBlocks (g : Cover) (tiles : List Tile) (t : ContigTable) : Prop :=
  t.nextOffsetThreshold = g.addressForIndex t.nextOffsetIndex ∧
    ∀ blockSize, TrueSizes g tiles blockSize → ∀ place addr, BlockAt g tiles place addr →
      ∃ enough, ∀ fuel ≥ enough, blockStartUnsafe g blockSize fuel t addr = .ok place

/-- The calls for consecutive blocks from the bottom of an empty space all return and leave
a table that finds every block exactly if no block starts too many cards. -/
theorem allocBlocks_findsBlocks_iff (g : Cover) (array : Nat → Nat) (tiles : List Tile)
    (hpos : ∀ tile ∈ tiles, 0 < tile.length) (hlimit : g.bottom + span tiles ≤ g.limit) :
    (∃ t, allocBlocks g g.bottom tiles (emptySpace g array) = .ok t ∧ FindsBlocks g tiles t) ↔
      ∀ place tile, (place, tile) ∈ placed g.bottom tiles → Fits g place (place + tile.length) := by
  have hempty := @filled_emptySpace g array
  constructor
  · rintro ⟨t, hrun, -⟩
    have := @fits_of_allocBlocks_ok g [] _ tiles t hempty hpos
    simp only [span_nil, Nat.add_zero] at this
    exact this hlimit hrun
  · intro hfits
    have := @allocBlocks_ok g [] _ tiles hempty hpos
    simp only [span_nil, Nat.add_zero, List.nil_append] at this
    obtain ⟨t, hrun, hfilled⟩ := this hlimit hfits
    refine ⟨t, hrun, hfilled.threshold, fun blockSize hsize place addr hblock => ?_⟩
    exact ⟨_, fun fuel hfuel => hfilled.blockStartUnsafe_ok hsize hlimit hblock hfuel⟩

theorem allocBlocks_findsBlocks_iff_twoBlocks :
    ∃ t, allocBlocks largeCover 128 [⟨1000, true⟩, ⟨20, true⟩] (emptySpace largeCover fun _ => 7) =
      .ok t ∧ FindsBlocks largeCover [⟨1000, true⟩, ⟨20, true⟩] t := by
  refine (allocBlocks_findsBlocks_iff largeCover (fun _ => 7) [⟨1000, true⟩, ⟨20, true⟩]
    (by decide) (by decide)).mpr ?_
  intro place tile hmem
  have hcases : (place = 128 ∧ tile = ⟨1000, true⟩) ∨ (place = 1128 ∧ tile = ⟨20, true⟩) := by
    simpa [largeCover] using hmem
  rcases hcases with ⟨rfl, rfl⟩ | ⟨rfl, rfl⟩
  · change 16 ≤ 1 + 2 ^ 28
    decide
  · change 16 ≤ 16 + 2 ^ 28
    decide

/-- A block of more than `2 ^ 28` cards. -/
theorem allocBlocks_longBlock :
    128 + (2 ^ 34 + 65) ≤ largeCover.limit ∧
      ¬∃ t, allocBlocks largeCover largeCover.bottom [⟨2 ^ 34 + 65, true⟩]
        (emptySpace largeCover fun _ => 0) = .ok t ∧
          FindsBlocks largeCover [⟨2 ^ 34 + 65, true⟩] t := by
  have hfailed := @Filled.step_undefined largeCover [] _ ⟨2 ^ 34 + 65, true⟩
    (filled_emptySpace fun _ => 0) (by decide) (by decide) (by
      change ¬2 ^ 28 + 2 ≤ 1 + 2 ^ 28
      decide)
  refine ⟨by decide, ?_⟩
  rintro ⟨t, hrun, -⟩
  rw [span_nil, Nat.add_zero] at hfailed
  rw [allocBlocks, hfailed] at hrun
  cases hrun

end ContigTable

/-! ## The reach of the entries

The entries that `set_remainder_to_point_to_start_incl` writes lead back to the card in front of the
range, as long as the range has fewer cards than the largest power of 16 that an `int` shift holds.
-/

variable {g : Cover}

/-- A lookup goes back from card to card, each time by what the entry says. -/
inductive SkipsTo (g : Cover) (array : Nat → Nat) (target : Nat) : Nat → Prop where
  | here : SkipsTo g array target target
  | back {card cards : Nat} (hentry : g.nWords ≤ array card)
      (hcards : entryToCardsBack g (array card) = .ok cards) (hpos : 0 < cards)
      (hle : cards ≤ card) (hskips : SkipsTo g array target (card - cards)) :
      SkipsTo g array target card

/-- Every card of the range is written, and no other one. An entry moves back by a power of 16 that
the shift holds, to the card in front of the range or behind it, and repeated skips reach it. -/
structure Covers (g : Cover) (startCard endCard : Nat) (array array' : Nat → Nat) : Prop where
  same : ∀ card, ¬(startCard ≤ card ∧ card ≤ endCard) → array' card = array card
  entry : ∀ card, startCard ≤ card → card ≤ endCard → g.nWords ≤ array' card
  back : ∀ card, startCard ≤ card → card ≤ endCard →
    entryToCardsBack g (array' card) = .ok (16 ^ (array' card - g.nWords)) ∧
      startCard - 1 + 16 ^ (array' card - g.nWords) ≤ card
  reaches : ∀ card, startCard ≤ card → card ≤ endCard → SkipsTo g array' (startCard - 1) card

/-- The cards in front of `base + 16 ^ 7` lead back to `base`. -/
theorem covers_pointingBack {base endCard : Nat} (array : Nat → Nat)
    (hnear : endCard < base + 16 ^ 7) :
    Covers g (base + 1) endCard array (pointingBack g base endCard array) := by
  have hentry : ∀ card, base + 1 ≤ card → card ≤ endCard →
      pointingBack g base endCard array card = g.nWords + Nat.log 16 (card - base) :=
    fun card hlow hhigh => if_pos ⟨hlow, hhigh⟩
  have hlog : ∀ card, base + 1 ≤ card → card ≤ endCard → Nat.log 16 (card - base) < 7 :=
    fun card hlow hhigh => Nat.log_lt_of_lt_pow (by omega) (by omega)
  have hpow : ∀ card, base + 1 ≤ card → 16 ^ Nat.log 16 (card - base) ≤ card - base :=
    fun card hlow => Nat.pow_log_le_self 16 (by omega)
  have hback : ∀ card, base + 1 ≤ card → card ≤ endCard →
      entryToCardsBack g (pointingBack g base endCard array card) =
        .ok (16 ^ Nat.log 16 (card - base)) := by
    intro card hlow hhigh
    have := hlog card hlow hhigh
    rw [hentry card hlow hhigh, entryToCardsBack_add (by omega)]
  constructor
  case same => exact fun card hcard => if_neg hcard
  case entry =>
    intro card hlow hhigh
    rw [hentry card hlow hhigh]
    exact Nat.le_add_right _ _
  case back =>
    intro card hlow hhigh
    have hle := hpow card hlow
    rw [hback card hlow hhigh, hentry card hlow hhigh, Nat.add_sub_cancel_left,
      Nat.add_sub_cancel]
    exact ⟨rfl, by omega⟩
  case reaches =>
    intro card
    rw [Nat.add_sub_cancel]
    induction card using Nat.strongRecOn with
    | _ card ih =>
      intro hlow hhigh
      have hle := hpow card hlow
      have hpos : 0 < 16 ^ Nat.log 16 (card - base) := Nat.pow_pos (by decide)
      refine .back ?_ (hback card hlow hhigh) hpos (by omega) ?_
      · rw [hentry card hlow hhigh]
        exact Nat.le_add_right _ _
      · -- a skip ends at the card in front of the range, or at an entry that was written
        rcases Nat.eq_or_lt_of_le (show base ≤ card - 16 ^ Nat.log 16 (card - base) by omega)
          with heq | hlt
        · rw [← heq]
          exact .here
        · exact ih _ (by omega) hlt (by omega)

/-- The range is covered exactly if it has fewer than `16 ^ 7` cards. -/
theorem setRemainderToPointToStartIncl_covers_iff (g : Cover) (startCard endCard : Nat)
    (array : Nat → Nat) (hle : startCard ≤ endCard) (hfirst : g.bottomCard < startCard)
    (hoffset : array (startCard - 1) ≤ g.nWords) :
    (∃ array', setRemainderToPointToStartIncl g startCard endCard array = .ok array' ∧
        Covers g startCard endCard array array') ↔
      endCard - startCard + 1 < 16 ^ 7 := by
  obtain ⟨base, rfl⟩ : ∃ base, startCard = base + 1 := ⟨startCard - 1, by omega⟩
  rw [Nat.add_sub_cancel] at hoffset
  constructor
  · rintro ⟨array', hrun, -⟩
    by_contra hfar
    rw [setRemainderToPointToStartIncl_undefined (by omega) hoffset (by omega)] at hrun
    cases hrun
  · intro hnear
    exact ⟨_, setRemainderToPointToStartIncl_eq (by omega) hoffset (by omega),
      covers_pointingBack array (by omega)⟩

theorem setRemainderToPointToStartIncl_covers_iff_twoCards :
    (∃ array', setRemainderToPointToStartIncl ContigTable.largeCover 2 3 (fun _ => 7) = .ok array' ∧
        Covers ContigTable.largeCover 2 3 (fun _ => 7) array') ↔ 3 - 2 + 1 < 16 ^ 7 :=
  setRemainderToPointToStartIncl_covers_iff ContigTable.largeCover 2 3 (fun _ => 7) (by decide)
    (by decide) (by decide)

/-- A range of `2 ^ 28` cards inside of a heap. -/
theorem setRemainderToPointToStartIncl_longRange :
    1 + 16 ^ 7 < ContigTable.largeCover.cardOf ContigTable.largeCover.limit ∧
      ContigTable.largeCover.bottomCard < 2 ∧
      ¬∃ array', setRemainderToPointToStartIncl ContigTable.largeCover 2 (1 + 16 ^ 7)
        (fun _ => 0) = .ok array' ∧
          Covers ContigTable.largeCover 2 (1 + 16 ^ 7) (fun _ => 0) array' := by
  refine ⟨by decide, by decide, ?_⟩
  rintro ⟨array', hrun, -⟩
  have hfailed := @setRemainderToPointToStartIncl_undefined ContigTable.largeCover 1 (1 + 16 ^ 7)
    (fun _ => 0) (by decide) (by decide) (Nat.le_refl _)
  cases hfailed.symm.trans hrun

end BlockOffset

end HotSpot
