import HotSpot.Memory.CodeHeapRuns

/-! # Lookup and iteration in the code heap

`find_start` follows the segment map back to the header of the block that holds
an address; `first` and `next` walk over the used blocks.
-/

namespace HotSpot.CodeHeap

open Tiling

variable {h : CodeHeap} {globals : Globals} {os : OS} {tiles left right : List Tile}
    {live : Set Nat}

/-! ## Finding the start of a block -/

/-- From anywhere inside a block the loop arrives at its header. -/
theorem findStartLoop_eq {segmap : Nat → BitVec 8} {start length k fuel : Nat}
    (hchains : Chains segmap start length) (hk : k < length) (hfuel : k < fuel) :
    findStartLoop segmap fuel (start + k) = some start := by
  induction fuel generalizing k with
  | zero => omega
  | succ fuel ih =>
    unfold findStartLoop
    rcases Nat.eq_zero_or_pos k with rfl | hpos
    · rw [Nat.add_zero, if_pos hchains.header]
    · obtain ⟨hdist, hle, -⟩ := hchains.inside k hpos hk
      have hne : segmap (start + k) ≠ 0 := by
        intro hzero
        simp [hzero] at hdist
      rw [if_neg hne, if_pos (by omega), Nat.add_sub_assoc hle]
      exact ih (by omega) (by omega)

/-- The address `p` lies in the block whose space starts at `q`. -/
def InBlock (h : CodeHeap) (q p : Nat) : Prop :=
  h.addressOf (h.blockOf q) ≤ p ∧ p < h.addressOf (h.followingBlock (h.blockOf q))

theorem addressOf_le_iff {i p : Nat} (hlow : h.memory.low ≤ p) :
    h.addressOf i ≤ p ↔ i ≤ h.segmentFor p := by
  rw [addressOf, segmentFor, Nat.shiftLeft_eq, Nat.shiftRight_eq_div_pow,
    Nat.le_div_iff_mul_le (Nat.two_pow_pos _)]
  omega

theorem lt_addressOf_iff {i p : Nat} (hlow : h.memory.low ≤ p) :
    p < h.addressOf i ↔ h.segmentFor p < i := by
  have := addressOf_le_iff (h := h) (i := i) hlow
  omega

theorem low_le_addressOf (i : Nat) : h.memory.low ≤ h.addressOf i := Nat.le_add_right _ _

theorem contains_iff {p : Nat} :
    h.contains p = true ↔ h.memory.low ≤ p ∧ p < h.memory.high := by
  simp [contains]

/-- The segments of addresses in the committed memory are those below the number of
committed segments. -/
theorem segmentFor_lt {p : Nat} (hgeometry : Geometry os h) (hlow : h.memory.low ≤ p)
    (hhigh : p < h.memory.high) : h.segmentFor p < h.numberOfCommittedSegments := by
  have hpos : 0 < h.segmentSize := hgeometry.segment ▸ Nat.two_pow_pos _
  rw [VirtualSpace.high] at hhigh
  rw [segmentFor, Nat.shiftRight_eq_div_pow, ← hgeometry.segment, Nat.div_lt_iff_lt_mul hpos,
    hgeometry.committed]
  omega

theorem WellFormed.inBlock_iff {s : Session} (hwf : WellFormed os s tiles) {place p : Nat}
    {tile : Tile}
    (hmem : (place, tile) ∈ placed 0 tiles) (hlow : s.heap.memory.low ≤ p) :
    s.heap.InBlock (s.heap.allocatedSpace place) p ↔
      place ≤ s.heap.segmentFor p ∧ s.heap.segmentFor p < place + tile.length := by
  have hlength : (s.heap.blockAt place).length = tile.length :=
    (hwf.represents.holds _ hmem).length_eq
  rw [InBlock, blockOf_allocatedSpace, followingBlock, hlength, addressOf_le_iff hlow,
    lt_addressOf_iff hlow]

/-- Where `find_start` gets to from a segment of a block. -/
theorem findStart_inside {s : Session} (hwf : WellFormed os s tiles) {place p : Nat} {tile : Tile}
    (hmem : (place, tile) ∈ placed 0 tiles) (hcontains : s.heap.contains p = true)
    (hle : place ≤ s.heap.segmentFor p) (hlt : s.heap.segmentFor p < place + tile.length) :
    s.heap.findStart p =
      some (if tile.used then some (s.heap.allocatedSpace place) else none) := by
  obtain ⟨-, hused, hchains⟩ := hwf.represents.holds _ hmem
  simp only at hused hchains
  obtain ⟨k, hk⟩ := Nat.exists_eq_add_of_le hle
  have hne : s.heap.segmap (s.heap.segmentFor p) ≠ 0xFF := by
    rw [hk]
    rcases Nat.eq_zero_or_pos k with rfl | hpos
    · rw [Nat.add_zero, hchains.header]
      decide
    · exact (hchains.inside k hpos (by omega)).2.2
  have hloop : findStartLoop s.heap.segmap (s.heap.segmentFor p + 1) (s.heap.segmentFor p) =
      some place := by
    conv_lhs => rw [hk]
    exact findStartLoop_eq hchains (by omega) (by omega)
  rw [findStart, if_pos hcontains]
  simp only [if_neg hne, hloop, Option.map_some, hused]

theorem findStart_outside {s : Session} (hwf : WellFormed os s tiles) {p : Nat}
    (hout : s.heap.contains p = true → s.heap.nextSegment ≤ s.heap.segmentFor p) :
    s.heap.findStart p = some none := by
  rw [findStart]
  split
  next hcontains =>
    have hbounds := contains_iff.mp hcontains
    have hfree := hwf.represents.unused _ (hout hcontains)
      (segmentFor_lt hwf.geometry hbounds.1 hbounds.2)
    simp only [if_pos hfree]
  next => rfl

theorem contains_of_inBlock {s : Session} (hwf : WellFormed os s tiles) {place p : Nat}
    {tile : Tile} (hmem : (place, tile) ∈ placed 0 tiles)
    (hin : s.heap.InBlock (s.heap.allocatedSpace place) p) : s.heap.contains p = true := by
  obtain ⟨hge, hlt⟩ := hin
  have hlength : (s.heap.blockAt place).length = tile.length :=
    (hwf.represents.holds _ hmem).length_eq
  rw [blockOf_allocatedSpace] at hge hlt
  rw [followingBlock, hlength, addressOf, Nat.shiftLeft_eq, ← hwf.geometry.segment] at hlt
  have hend : place + tile.length ≤ s.heap.numberOfCommittedSegments := by
    have := mem_placed_bounds hmem
    have := hwf.represents.span_eq
    have := hwf.represents.next_le
    omega
  have hbytes := Nat.mul_le_mul_right s.heap.segmentSize hend
  rw [hwf.geometry.committed] at hbytes
  have hlow := low_le_addressOf (h := s.heap) place
  rw [contains_iff, VirtualSpace.high]
  omega

/-- `find_start` finds the used block that holds `p`, if there is one. -/
theorem findStart_eq {s : Session} (hwf : WellFormed os s tiles) (p : Nat) :
    (∀ q ∈ s.live, s.heap.InBlock q p → s.heap.findStart p = some (some q)) ∧
      ((∀ q ∈ s.live, ¬ s.heap.InBlock q p) → s.heap.findStart p = some none) := by
  constructor
  · intro q hq hin
    obtain ⟨place, tile, hmem, hused, rfl⟩ := (hwf.owns q).mp hq
    have hlow : s.heap.memory.low ≤ p := (low_le_addressOf _).trans hin.1
    obtain ⟨hle, hlt⟩ := (hwf.inBlock_iff hmem hlow).mp hin
    rw [findStart_inside hwf hmem (contains_of_inBlock hwf hmem hin) hle hlt, if_pos hused]
  · intro hnone
    by_cases hin : s.heap.contains p = true ∧ s.heap.segmentFor p < s.heap.nextSegment
    · obtain ⟨hcontains, hlt⟩ := hin
      rw [← hwf.represents.span_eq] at hlt
      obtain ⟨place, tile, hmem, hbounds⟩ :=
        exists_placed_of_lt (Nat.zero_le _) (by rwa [Nat.zero_add])
      rw [findStart_inside hwf hmem hcontains hbounds.1 hbounds.2]
      cases hused : tile.used with
      | false => rfl
      | true =>
        have hlow : s.heap.memory.low ≤ p := (contains_iff.mp hcontains).1
        refine absurd ((hwf.inBlock_iff hmem hlow).mpr hbounds) (hnone _ ?_)
        exact (hwf.owns _).mpr ⟨place, tile, hmem, hused, rfl⟩
    · refine findStart_outside hwf fun hcontains => ?_
      by_contra hlt
      exact hin ⟨hcontains, by omega⟩

/-! ## Walking over the used blocks -/

/-- The addresses that `for (p = first(); p != NULL; p = next(p))` visits; without a
value if it has not ended after `fuel` rounds. -/
def visit (h : CodeHeap) : Nat → Option Nat → Option (List Nat)
  | 0, _ => none
  | _ + 1, none => some []
  | fuel + 1, some p =>
    match h.next p with
    | none => none
    | some q => (h.visit fuel q).map (p :: ·)

/-- The block that starts at segment `i`, if this segment is in use. -/
def headAt (h : CodeHeap) (i : Nat) : Option Nat := if i < h.nextSegment then some i else none

theorem nextBlock_some (b : Nat) : h.nextBlock (some b) = h.headAt (h.followingBlock b) := rfl

theorem WellFormed.headAt_eq {s : Session} (hwf : WellFormed os s (left ++ right)) :
    s.heap.headAt (span left) = if right = [] then none else some (span left) := by
  have hspan := hwf.represents.span_eq
  rw [span_append] at hspan
  cases right with
  | nil =>
    rw [span_nil, Nat.add_zero] at hspan
    rw [headAt, if_neg (by omega), if_pos rfl]
  | cons head tail =>
    have hpos := hwf.represents.positive head (by simp)
    rw [span_cons] at hspan
    rw [headAt, if_pos (by omega), if_neg (by simp)]

theorem next_allocatedSpace {s : Session} {length : Nat}
    (hwf : WellFormed os s (left ++ ⟨length, true⟩ :: right)) :
    s.heap.next (s.heap.allocatedSpace (span left)) =
      some (s.heap.nextFree (s.heap.headAt (span left + length))) := by
  have hblock := hwf.represents.block
  have hmem : (span left, ⟨length, true⟩) ∈ placed 0 (left ++ ⟨length, true⟩ :: right) := by simp
  have hlive : s.heap.allocatedSpace (span left) ∈ s.live :=
    (hwf.owns _).mpr ⟨span left, _, hmem, rfl, rfl⟩
  have hlow : s.heap.memory.low ≤ s.heap.allocatedSpace (span left) :=
    (low_le_addressOf _).trans (Nat.le_add_right _ _)
  have hsegment : s.heap.segmentFor (s.heap.allocatedSpace (span left)) = span left := by
    refine segmentFor_addressOf_add ?_
    have hroom := hwf.geometry.room
    rw [← hwf.geometry.segment]
    simp only [sizeofFreeBlock, sizeofHeapBlock] at hroom ⊢
    omega
  have hin : s.heap.InBlock (s.heap.allocatedSpace (span left))
      (s.heap.allocatedSpace (span left)) := by
    rw [hwf.inBlock_iff hmem hlow, hsegment]
    have : 0 < length := hwf.represents.positive ⟨length, true⟩ (by simp)
    exact ⟨le_rfl, by simpa using this⟩
  rw [next, blockStart, (findStart_eq hwf _).1 _ hlive hin]
  simp only [Option.map_some]
  change some (s.heap.nextFree (s.heap.nextBlock (some (s.heap.blockOf _)))) = _
  rw [blockOf_allocatedSpace, nextBlock_some, followingBlock, hblock.length_eq]

/-- A free block is passed over: the one behind it is used. -/
theorem nextFree_free {s : Session} {length : Nat}
    (hwf : WellFormed os s (left ++ ⟨length, false⟩ :: right)) :
    s.heap.nextFree (some (span left)) =
      s.heap.nextFree (s.heap.headAt (span left + length)) := by
  have hblock := hwf.represents.block
  have hfree : (s.heap.blockAt (span left)).used = false := hblock.used_eq
  have hlength : (s.heap.blockAt (span left)).length = length := hblock.length_eq
  have hwf' : WellFormed os s ((left ++ [⟨length, false⟩]) ++ right) := by simpa using hwf
  have hhead := hwf'.headAt_eq
  rw [span_append, span_cons, span_nil, Nat.add_zero] at hhead
  have hleft : s.heap.nextFree (some (span left)) =
      (s.heap.headAt (span left + length)).map s.heap.allocatedSpace := by
    rw [nextFree]
    simp only [hfree, Bool.false_eq_true, if_false, nextBlock_some, followingBlock, hlength]
  rw [hleft, hhead]
  cases right with
  | nil => rfl
  | cons head tail =>
    have hused : head.used = true := by
      have hpair := (List.isChain_append.mp hwf.merged).2.1
      simpa using (List.isChain_cons_cons.mp hpair).1
    have hbit : (s.heap.blockAt (span left + length)).used = true :=
      ((hwf.represents.holds (span left + length, head) (by simp)).used_eq).trans hused
    rw [if_neg (by simp), nextFree]
    simp only [hbit, if_true]

/-- The loop visits the used blocks from where it stands on. -/
theorem visit_eq {s : Session} {fuel : Nat} (hwf : WellFormed os s (left ++ right))
    (hfuel : right.length < fuel) :
    s.heap.visit fuel (s.heap.nextFree (s.heap.headAt (span left))) =
      some ((usedStarts (span left) right).map s.heap.allocatedSpace) := by
  induction right generalizing left fuel with
  | nil =>
    obtain ⟨fuel, rfl⟩ := Nat.exists_eq_add_one_of_ne_zero (Nat.ne_zero_of_lt hfuel)
    rw [hwf.headAt_eq, if_pos rfl]
    rfl
  | cons head tail ih =>
    obtain ⟨length, used⟩ := head
    have hwf' : WellFormed os s ((left ++ [⟨length, used⟩]) ++ tail) := by simpa using hwf
    have hspan : span (left ++ [⟨length, used⟩]) = span left + length := by simp
    rw [List.length_cons] at hfuel
    rw [hwf.headAt_eq, if_neg (by simp)]
    cases used with
    | false =>
      have htail := ih hwf' (show tail.length < fuel by omega)
      rw [hspan] at htail
      rw [nextFree_free hwf, htail]
      rfl
    | true =>
      obtain ⟨fuel, rfl⟩ := Nat.exists_eq_add_one_of_ne_zero (Nat.ne_zero_of_lt hfuel)
      have hbit : (s.heap.blockAt (span left)).used = true := hwf.represents.block.used_eq
      have hhere : s.heap.nextFree (some (span left)) =
          some (s.heap.allocatedSpace (span left)) := by
        rw [nextFree]
        simp only [hbit, if_true, Option.map_some]
      have htail := ih hwf' (show tail.length < fuel by omega)
      rw [hspan] at htail
      rw [hhere, visit, next_allocatedSpace hwf]
      simp only [htail, Option.map_some]
      rfl

/-- In every state of every run `find_start` returns for every address, with the
used block that holds it or `NULL`, and the walk from `first` by `next` ends after
visiting the used blocks once each, in address order. -/
theorem reachable_lookup {s : Session} (hs : (system globals os).Reachable s) :
    (∀ p, (∀ q ∈ s.live, s.heap.InBlock q p → s.heap.findStart p = some (some q)) ∧
      ((∀ q ∈ s.live, ¬ s.heap.InBlock q p) → s.heap.findStart p = some none)) ∧
    ∃ fuel visited, s.heap.visit fuel s.heap.first = some visited ∧
      visited.Pairwise (· < ·) ∧ ∀ p, p ∈ visited ↔ p ∈ s.live := by
  obtain ⟨tiles, hwf⟩ := reachable_wellFormed hs
  have hwhole : WellFormed os s ([] ++ tiles) := hwf
  refine ⟨findStart_eq hwf, tiles.length + 1, (usedStarts 0 tiles).map s.heap.allocatedSpace,
    visit_eq hwhole (Nat.lt_succ_self _), ?_, fun p => ?_⟩
  · refine List.pairwise_map.mpr ((usedStarts_sorted 0 hwf.represents.positive).imp fun hlt => ?_)
    exact Nat.add_lt_add_right (addressOf_lt hlt) _
  · rw [hwf.owns p, List.mem_map]
    constructor
    · rintro ⟨place, hplace, rfl⟩
      obtain ⟨tile, hmem, hused⟩ := mem_usedStarts.mp hplace
      exact ⟨place, tile, hmem, hused, rfl⟩
    · rintro ⟨place, tile, hmem, hused, rfl⟩
      exact ⟨place, mem_usedStarts.mpr ⟨tile, hmem, hused⟩, rfl⟩

theorem reachable_lookup_smallHeap : freedHeap.findStart 100 = some (some 80) ∧
    freedHeap.findStart 40 = some none := by
  have hlookup := (reachable_lookup freedHeap_reachable).1
  refine ⟨(hlookup 100).1 80 (by simp) ?_, (hlookup 40).2 ?_⟩
  · exact ⟨by decide, by decide⟩
  · rintro q ⟨hq, hfree⟩ hin
    obtain rfl : q = 80 := by
      simp only [Set.mem_insert_iff, Set.mem_empty_iff_false, or_false,
        Set.mem_singleton_iff] at hq hfree
      omega
    exact absurd hin.1 (by decide)

end HotSpot.CodeHeap

/-! ## The shortest blocks of the code heap

A block that is put on top of the used segments has the minimum length, and one that is cut
leaves a front of at least that. The tail that is cut off is as short as the request.
-/

namespace HotSpot.CodeHeap

open Tiling

variable {h h' : CodeHeap} {globals : Globals} {os : OS} {tiles : List Tile} {live : Set Nat}

/-- The request has the minimum length, or else the block that the scan finds, if any, is
taken whole. -/
def FitsMinimum (globals : Globals) (h : CodeHeap) (size : Nat) : Prop :=
  let length := h.numberOfSegments (size + sizeofHeapBlock)
  globals.codeCacheMinBlockLength ≤ length ∨
    ∀ best, h.scanBest length (h.nextSegment + 1) none none h.freelist = some (some best) →
      (h.blockAt best.block).length < length + globals.codeCacheMinBlockLength

/-- A step that cuts no short block off a longer one. The steps that hand out nothing are any
of those of the heap. -/
inductive FittingStep (globals : Globals) (os : OS) : Session → Session → Prop
  | allocate {h h' : CodeHeap} {live : Set Nat} {size p : Nat} (hfits : h.FitsMinimum globals size)
      (hallocate : h.allocate globals size = some (some p, h')) :
      FittingStep globals os ⟨h, live⟩ ⟨h', insert p live⟩
  | other {s s' : Session} (hstep : Step globals os s s') (hlive : s'.live ⊆ s.live) :
      FittingStep globals os s s'

def fittingSystem (globals : Globals) (os : OS) : TransitionSystem Session where
  init := Reserved os
  step := FittingStep globals os

/-- No tile is shorter than the minimum. -/
def AtLeast (globals : Globals) (tiles : List Tile) : Prop :=
  ∀ tile ∈ tiles, globals.codeCacheMinBlockLength ≤ tile.length

/-- A fitting allocation leaves no short block. -/
theorem allocate_atLeast {size : Nat} {p : Option Nat} (hwf : WellFormed os ⟨h, live⟩ tiles)
    (hleast : AtLeast globals tiles) (hfits : h.FitsMinimum globals size)
    (hallocate : h.allocate globals size = some (p, h')) :
    ∃ tiles', h'.Represents tiles' ∧ AtLeast globals tiles' := by
  have hrep := hwf.represents
  have hn : 0 < h.numberOfSegments (size + sizeofHeapBlock) :=
    numberOfSegments_pos hwf.geometry.segment (by simp [sizeofHeapBlock])
  unfold allocate at hallocate
  dsimp only at hallocate
  rcases searchFreelist_cases globals hrep hn with
    hsearch | ⟨left, right, length, prev, b, h'', rfl, hle, hscan, hsearch, -, htaken⟩
  · rw [hsearch] at hallocate
    dsimp only at hallocate
    generalize hmin : (if h.numberOfSegments (size + sizeofHeapBlock) <
      globals.codeCacheMinBlockLength then globals.codeCacheMinBlockLength
      else h.numberOfSegments (size + sizeofHeapBlock)) = length at hallocate
    have hlength : globals.codeCacheMinBlockLength ≤ length := by
      split at hmin <;> omega
    have hpos := globals.codeCacheMinBlockLength_pos
    split at hallocate
    next hroom =>
      obtain ⟨-, rfl⟩ := Prod.mk.inj (Option.some.inj hallocate)
      refine ⟨_, bump_represents hrep (by omega) hroom, ?_⟩
      rw [AtLeast, List.forall_mem_append]
      exact ⟨hleast, by simpa using hlength⟩
    next =>
      obtain ⟨-, rfl⟩ := Prod.mk.inj (Option.some.inj hallocate)
      exact ⟨tiles, hrep, hleast⟩
  · rw [hsearch] at hallocate
    obtain ⟨-, rfl⟩ := Prod.mk.inj (Option.some.inj hallocate)
    have hblock : (h.blockAt (span left)).length = length := hrep.block.length_eq
    rw [AtLeast, List.forall_mem_append, List.forall_mem_cons] at hleast
    rcases htaken with ⟨-, -, hrep'⟩ | ⟨hcut, -, hrep'⟩
    · refine ⟨_, hrep', ?_⟩
      rw [AtLeast, List.forall_mem_append, List.forall_mem_cons]
      exact hleast
    · refine ⟨_, hrep', ?_⟩
      rw [AtLeast, List.forall_mem_append, List.forall_mem_cons, List.forall_mem_cons]
      refine ⟨hleast.1, by dsimp only; omega, ?_, hleast.2.2⟩
      rcases hfits with hlong | hwhole
      · exact hlong
      · have hlt := hwhole _ hscan
        rw [hblock] at hlt
        omega

/-- The heap is well-formed and has no short block. -/
def WellFormedAtLeast (globals : Globals) (os : OS) (s : Session) : Prop :=
  ∃ tiles, WellFormed os s tiles ∧ AtLeast globals tiles

theorem FittingStep.wellFormedAtLeast {s s' : Session} (hs : WellFormedAtLeast globals os s)
    (hstep : FittingStep globals os s s') : WellFormedAtLeast globals os s' := by
  obtain ⟨tiles, hwf, hleast⟩ := hs
  cases hstep with
  | allocate hfits hallocate =>
    obtain ⟨tiles', hwf'⟩ := Step.wellFormed ⟨tiles, hwf⟩ (.allocate hallocate)
    obtain ⟨tiles'', hrep'', hleast''⟩ := allocate_atLeast hwf hleast hfits hallocate
    obtain rfl := hwf'.represents.unique hrep''
    exact ⟨tiles', hwf', hleast''⟩
  | other hstep hshrinks =>
    cases hstep with
    | @allocate h h' live size p hallocate =>
      -- An address that is handed out is new.
      exfalso
      rcases allocate_wellFormed globals hwf size with
        hnone | ⟨b, _, h'', _, hsome, -, -, hfresh, -⟩
      · simp [hnone] at hallocate
      · rw [hsome] at hallocate
        obtain ⟨rfl, rfl⟩ := by simpa using hallocate
        exact hfresh (hshrinks (Set.mem_insert _ _))
    | @allocateFull h h' live size hallocate =>
      rcases allocate_wellFormed globals hwf size with hnone | ⟨_, _, _, _, hsome, -⟩
      · obtain rfl : h = h' := by simpa [hnone] using hallocate
        exact ⟨tiles, hwf, hleast⟩
      · simp [hsome] at hallocate
    | deallocate hlive hdeallocate =>
      obtain ⟨h'', tiles', heq, hwf', hlengths⟩ := deallocate_eq hwf hlive
      rw [hdeallocate] at heq
      obtain rfl := Option.some.inj heq
      exact ⟨tiles', hwf', hlengths _ hleast⟩
    | expandBy hexpand => exact ⟨tiles, wellFormed_expandBy hwf hexpand, hleast⟩
    | write hlive hheader houtside =>
      exact ⟨tiles, wellFormed_write hwf hlive hheader houtside, hleast⟩

/-- While no step cuts a short block off a longer one, no block on the free list is shorter
than the minimum. -/
theorem reachable_minimum {s : Session} (hs : (fittingSystem globals os).Reachable s) :
    ∃ blocks, s.heap.RepresentationInvariant blocks ∧
      ∀ b ∈ blocks.filter s.heap.isFree,
        globals.codeCacheMinBlockLength ≤ (s.heap.blockAt b).length := by
  obtain ⟨tiles, hwf, hleast⟩ : WellFormedAtLeast globals os s := by
    refine hs.invariant (P := WellFormedAtLeast globals os) ?_ ?_
    · exact fun _ hinit => ⟨[], wellFormed_reserve hinit, by simp [AtLeast]⟩
    · exact fun _ _ hinv hstep => hstep.wellFormedAtLeast hinv
  refine ⟨_, hwf.representationInvariant, fun b hb => ?_⟩
  obtain ⟨p, hp, rfl⟩ := List.mem_map.mp (List.mem_filter.mp hb).1
  rw [(hwf.represents.holds p hp).length_eq]
  exact hleast _ (mem_placed_mem hp)

/-! ## A run that leaves a short block -/

def fourSegments : Globals := ⟨4, by decide⟩

/-- A heap of sixteen committed segments. -/
def emptyHeap : CodeHeap :=
  ((new (fun _ => 0) fun _ => ⟨0, false, none⟩).reserve smallPages 16384 1024 64 0 0 true
    true).get rfl

theorem emptyHeap_reserved : Reserved smallPages ⟨emptyHeap, ∅⟩ :=
  .intro (by decide) (by decide) ⟨6, rfl⟩ (by decide) (Option.some_get _).symm

theorem emptyHeap_fits : emptyHeap.FitsMinimum fourSegments 490 := .inl (by decide)

/-- A block of eight segments on top. -/
def oneBlock : CodeHeap := ((emptyHeap.allocate fourSegments 490).get rfl).2

theorem oneBlock_eq : emptyHeap.allocate fourSegments 490 = some (some 16, oneBlock) :=
  eq_some_of_fst rfl rfl

def oneFree : CodeHeap := (oneBlock.deallocate 16).get rfl

/-- Two blocks of eight segments. -/
def twoBlocks : CodeHeap := ((oneBlock.allocate fourSegments 490).get rfl).2

theorem reachable_minimum_oneBlock : ∃ s : Session,
    (fittingSystem fourSegments smallPages).Reachable s ∧ s.heap.freelist = some 0 ∧
    ∃ blocks, s.heap.RepresentationInvariant blocks ∧
      ∀ b ∈ blocks.filter s.heap.isFree, 4 ≤ (s.heap.blockAt b).length := by
  have h0 : (fittingSystem fourSegments smallPages).Reachable ⟨oneBlock, insert 16 ∅⟩ :=
    .step (.of_init emptyHeap_reserved) (.allocate emptyHeap_fits oneBlock_eq)
  have htwo : oneBlock.allocate fourSegments 490 = some (some 528, twoBlocks) :=
    eq_some_of_fst rfl rfl
  have h1 := h0.step (.allocate (.inl (by decide)) htwo)
  have h2 := h1.step (.other (.deallocate (p := 16) (by simp) (Option.some_get rfl).symm)
    Set.sdiff_subset)
  exact ⟨_, h2, rfl, reachable_minimum h2⟩

/-- A single segment cut off the free block. -/
def cutHeap : CodeHeap := ((oneFree.allocate fourSegments 1).get rfl).2

/-- What remained in front of it is handed out, too. -/
def fullHeap : CodeHeap := ((cutHeap.allocate fourSegments 400).get rfl).2

def shortHeap : CodeHeap := (fullHeap.deallocate 464).get rfl

theorem reachable_below_minimum : ∃ live,
    (system fourSegments smallPages).Reachable ⟨shortHeap, live⟩ ∧
    shortHeap.freelist = some 7 ∧ (shortHeap.blockAt 7).length = 1 ∧
    fourSegments.codeCacheMinBlockLength = 4 := by
  have h0 : (system fourSegments smallPages).Reachable ⟨oneBlock, insert 16 ∅⟩ :=
    .step (.of_init emptyHeap_reserved) (.allocate oneBlock_eq)
  have h1 := h0.step (.deallocate (Set.mem_insert 16 ∅) (Option.some_get rfl).symm)
  have hcut : oneFree.allocate fourSegments 1 = some (some 464, cutHeap) := eq_some_of_fst rfl rfl
  have h2 := h1.step (.allocate hcut)
  have hfull : cutHeap.allocate fourSegments 400 = some (some 16, fullHeap) :=
    eq_some_of_fst rfl rfl
  have h3 := h2.step (.allocate hfull)
  have h4 := h3.step (.deallocate (p := 464) (by simp) (Option.some_get rfl).symm)
  exact ⟨_, h4, rfl, rfl, rfl⟩

end HotSpot.CodeHeap
