import HotSpot.Memory.CodeHeapTiling

/-! # Allocation in the code heap

`search_freelist` hands out a whole free block or the tail of one, and
`allocate` falls back on the segments above the used ones.
-/

namespace HotSpot.CodeHeap

open Tiling

variable {h : CodeHeap} {tiles left right : List Tile} {length m n : Nat}

/-- The scan ends, and what it finds is a long enough block with its predecessor. -/
theorem scanBest_eq (n : Nat) (best : Option Best) (prev : Option Nat) {fuel : Nat}
    {cur : Option Nat} {nodes : List Nat}
    (hlinked : LinkedSegment h.linkOf cur nodes none) (hfuel : nodes.length < fuel) :
    ∃ result, h.scanBest n fuel best prev cur = some result ∧
      (result = best ∨ ∃ before c after, nodes = before ++ c :: after ∧
        result = some ⟨c, before.getLast?.or prev⟩ ∧ n ≤ (h.blockAt c).length) := by
  induction nodes generalizing fuel best prev cur with
  | nil =>
    obtain ⟨fuel, rfl⟩ := Nat.exists_eq_add_one_of_ne_zero (Nat.ne_of_gt hfuel)
    obtain rfl : cur = none := hlinked
    exact ⟨best, rfl, Or.inl rfl⟩
  | cons c rest ih =>
    obtain ⟨fuel, rfl⟩ := Nat.exists_eq_add_one_of_ne_zero (Nat.ne_zero_of_lt hfuel)
    obtain ⟨rfl, hrest⟩ := hlinked
    rw [scanBest]
    obtain ⟨result, hscan, hresult⟩ := ih _ (some c) hrest (by simpa using hfuel)
    refine ⟨result, hscan, ?_⟩
    rcases hresult with rfl | ⟨before, c', after, rfl, rfl, hle⟩
    · split
      next hbetter => exact Or.inr ⟨[], c, rest, rfl, rfl, hbetter.1⟩
      next => exact Or.inl rfl
    · refine Or.inr ⟨c :: before, c', after, rfl, ?_, hle⟩
      cases before with
      | nil => rfl
      | cons second before => simp [List.getLast?_cons]

/-- The used tiles of `after` are those of `before` and a new one of `length` at `b`. -/
structure Uses (before after : List Tile) (b length : Nat) : Prop where
  fresh : ∀ tile, tile.used = true → (b, tile) ∉ placed 0 before
  used_iff : ∀ place tile, tile.used = true →
    ((place, tile) ∈ placed 0 after ↔
      (place, tile) ∈ placed 0 before ∨ (place, tile) = (b, ⟨length, true⟩))

/-- No used tile starts inside a free one. -/
theorem fresh_of_inside {b : Nat}
    (hpos : ∀ tile ∈ left ++ ⟨length, false⟩ :: right, 0 < tile.length)
    (hle : span left ≤ b) (hlt : b < span left + length) :
    ∀ tile, tile.used = true → (b, tile) ∉ placed 0 (left ++ ⟨length, false⟩ :: right) := by
  intro tile hused hmem
  have hfree : (span left, ⟨length, false⟩) ∈ placed 0 (left ++ ⟨length, false⟩ :: right) := by
    simp
  have htile := hpos tile (mem_placed_mem hmem)
  rcases placed_apart hfree hmem with heq | hapart
  · obtain ⟨-, rfl⟩ := Prod.mk.inj heq
    simp at hused
  · simp only at hapart
    omega

theorem uses_whole (hpos : ∀ tile ∈ left ++ ⟨length, false⟩ :: right, 0 < tile.length) :
    Uses (left ++ ⟨length, false⟩ :: right) (left ++ ⟨length, true⟩ :: right) (span left)
      length := by
  have hlength : 0 < length := hpos ⟨length, false⟩ (by simp)
  refine ⟨fresh_of_inside hpos le_rfl (by omega), fun place tile hused => ?_⟩
  have hne : tile ≠ ⟨length, false⟩ := by
    rintro rfl
    simp at hused
  simp [hne]
  tauto

theorem uses_tail (hpos : ∀ tile ∈ left ++ ⟨length, false⟩ :: right, 0 < tile.length)
    (hn : 0 < n) (hle : n ≤ length) :
    Uses (left ++ ⟨length, false⟩ :: right)
      (left ++ ⟨length - n, false⟩ :: ⟨n, true⟩ :: right) (span left + (length - n)) n := by
  refine ⟨fresh_of_inside hpos (by omega) (by omega), fun place tile hused => ?_⟩
  have hne : ∀ length, tile ≠ ⟨length, false⟩ := by
    rintro length rfl
    simp at hused
  have hend : span left + (length - n) + n = span left + length := by omega
  simp [hne, hend]
  tauto

@[simp] theorem extent_setFreeSegments : (h.setFreeSegments n).extent = h.extent := rfl

@[simp] theorem freelist_setFreeSegments : (h.setFreeSegments n).freelist = h.freelist := rfl

@[simp] theorem blockAt_setFreeSegments : (h.setFreeSegments n).blockAt = h.blockAt := rfl

@[simp] theorem linkOf_setFreeSegments : (h.setFreeSegments n).linkOf = h.linkOf := rfl

theorem unlink_represents (hrep : h.Represents (left ++ ⟨length, false⟩ :: right)) :
    ((h.unlink (span left) (freeStarts 0 left).getLast?).setFreeSegments
      (h.freeSegments - length)).Represents (left ++ ⟨length, true⟩ :: right) := by
  have hlinked := hrep.linked
  have hsorted := freeStarts_sorted 0 hrep.positive
  obtain ⟨-, hright⟩ := hrep.linked_split
  rw [freeStarts_append, freeStarts_cons_free, Nat.zero_add] at hlinked hsorted
  have hcount : h.freeSegments - length = freeLength (left ++ ⟨length, true⟩ :: right) := by
    have := hrep.count
    simp only [freeLength_append, freeLength_cons_free, freeLength_cons_used] at this ⊢
    omega
  rcases List.eq_nil_or_concat (freeStarts 0 left) with hnil | ⟨before, last, hlast⟩
  · rw [hnil]
    refine ⟨hrep.toTiled.setUsed rfl rfl fun i => ?_, ?_, hcount⟩
    · exact ⟨length_setUsed _ _ _ _, used_setUsed _ _ _ _⟩
    · rw [freeStarts_append, freeStarts_cons_used, hnil, Nat.zero_add]
      change LinkedSegment (CodeHeap.setUsed _ (span left) true).linkOf _ _ none
      rw [linkOf_setUsed]
      exact hright
  · rw [List.concat_eq_append] at hlast
    rw [hlast, List.getLast?_concat]
    refine ⟨hrep.toTiled.setUsed rfl rfl fun i => ?_, ?_, hcount⟩
    · exact ⟨by simp [unlink], by simp [unlink]⟩
    · rw [freeStarts_append, freeStarts_cons_used, Nat.zero_add]
      rw [hlast, ← List.append_cons] at hlinked hsorted
      rw [hlast, List.append_assoc, List.singleton_append]
      change LinkedSegment (CodeHeap.setUsed _ (span left) true).linkOf _ _ none
      rw [linkOf_setUsed, linkOf_setLink]
      exact hlinked.remove_after (hsorted.imp Nat.ne_of_lt)

theorem freelist_cutTail (b front : Nat) : (h.cutTail b front n).freelist = h.freelist := by
  simp only [cutTail, CodeHeap.setUsed, setLength, setBlock, markSegmapAsUsed]

theorem cutTail_represents (hrep : h.Represents (left ++ ⟨length, false⟩ :: right)) (hn : 0 < n)
    (hlt : n < length) :
    ((h.cutTail (span left) (length - n) n).setFreeSegments (h.freeSegments - n)).Represents
      (left ++ ⟨length - n, false⟩ :: ⟨n, true⟩ :: right) := by
  have hold := hrep.block
  have hspan : span [⟨length - n, false⟩, ⟨n, true⟩] = span [⟨length, false⟩] := by
    simp
    omega
  refine ⟨Tiled.replace [⟨length, false⟩]
    [⟨length - n, false⟩, ⟨n, true⟩] hrep.toTiled (by simp [cutTail]) hspan ?_ ?_ ?_,
    ?_, ?_⟩
  · simp
    omega
  · intro i hout
    simp only [span_cons, span_nil, Nat.add_zero] at hout
    have hfront : i ≠ span left := by omega
    have hback : i ≠ span left + (length - n) := by omega
    exact ⟨by simp [cutTail, hfront, hback], by simp [cutTail, hback],
      segmap_markSegmapAsUsed_of_not_mem _ _ _ (by omega)⟩
  · rintro p hp
    simp only [placed_cons, placed_nil, List.mem_cons, List.not_mem_nil, or_false] at hp
    rcases hp with rfl | rfl
    · refine ⟨?_, ?_, ?_⟩
      · simp [cutTail]
        omega
      · simpa [cutTail, show length - n ≠ 0 by omega] using hold.used_eq
      · refine (hold.chains.shorten (Nat.sub_le length n)).congr (by simp; omega) ?_
        exact fun i _ hi => segmap_markSegmapAsUsed_of_not_mem _ _ _ (Or.inl hi)
    · exact ⟨by simp [cutTail], by simp [cutTail], chains_markSegmapAsUsed _ _ hn⟩
  · have hlinked := hrep.linked
    have hend : span left + (length - n) + n = span left + length := by omega
    simp only [freeStarts_append, freeStarts_cons_free, freeStarts_cons_used, Nat.zero_add,
      hend] at hlinked ⊢
    rw [linkOf_setFreeSegments, freelist_setFreeSegments, freelist_cutTail]
    simpa [cutTail] using hlinked
  · have := hrep.count
    simp only [freeLength_append, freeLength_cons_free, freeLength_cons_used] at this ⊢
    change h.freeSegments - n = _
    omega

/-! ## The two sources of a block -/

/-- The heap represents the tiles with one more of them used, of at least `n`
segments at `b`. -/
def HandsOut (h : CodeHeap) (tiles : List Tile) (n b : Nat) : Prop :=
  ∃ tiles' length, h.Represents tiles' ∧ NoAdjacentFree tiles' ∧ Uses tiles tiles' b length ∧
    n ≤ length

/-- A search fails, or takes the block that the scan finds: the whole of it, or its tail if
a block of minimum length remains in front. -/
theorem searchFreelist_cases (globals : Globals) (hrep : h.Represents tiles) (hn : 0 < n) :
    h.searchFreelist globals n = some (none, h) ∨
      ∃ left right length prev b h', tiles = left ++ ⟨length, false⟩ :: right ∧ n ≤ length ∧
        h.scanBest n (h.nextSegment + 1) none none h.freelist = some (some ⟨span left, prev⟩) ∧
        h.searchFreelist globals n = some (some b, h') ∧ h'.extent = h.extent ∧
        (length < n + globals.codeCacheMinBlockLength ∧ b = span left ∧
            h'.Represents (left ++ ⟨length, true⟩ :: right) ∨
          n + globals.codeCacheMinBlockLength ≤ length ∧ b = span left + (length - n) ∧
            h'.Represents (left ++ ⟨length - n, false⟩ :: ⟨n, true⟩ :: right)) := by
  have hfuel : (freeStarts 0 tiles).length < h.nextSegment + 1 := by
    have := length_freeStarts_le 0 hrep.positive
    have := hrep.span_eq
    omega
  obtain ⟨result, hscan, hresult⟩ :=
    scanBest_eq n none none hrep.linked hfuel
  rcases hresult with rfl | ⟨before, c, after, hsplit, rfl, hle⟩
  · left
    simp only [searchFreelist, hscan]
  · obtain ⟨left, right, length, rfl, rfl, rfl, -⟩ := freeStarts_split hsplit
    rw [Nat.zero_add] at *
    have hlength : (h.blockAt (span left)).length = length := hrep.block.length_eq
    rw [Option.or_none] at hscan
    right
    by_cases hfit : length < n + globals.codeCacheMinBlockLength
    · refine ⟨left, right, length, _, span left, _, rfl, hlength ▸ hle, hscan, ?_, ?_,
        Or.inl ⟨hfit, rfl, unlink_represents hrep⟩⟩
      · simp only [searchFreelist, hscan, hlength, if_pos hfit]
      · cases (freeStarts 0 left).getLast? <;> rfl
    · have hmin := globals.codeCacheMinBlockLength_pos
      refine ⟨left, right, length, _, span left + (length - n), _, rfl, hlength ▸ hle, hscan, ?_,
        ?_, Or.inr ⟨not_lt.mp hfit, rfl, cutTail_represents hrep hn (by omega)⟩⟩
      · simp only [searchFreelist, hscan, hlength, if_neg hfit]
      · simp [cutTail]

theorem searchFreelist_represents (globals : Globals) (hrep : h.Represents tiles)
    (hadj : NoAdjacentFree tiles)
    (hn : 0 < n) :
    h.searchFreelist globals n = some (none, h) ∨
      ∃ b h', h.searchFreelist globals n = some (some b, h') ∧ h'.extent = h.extent ∧
        h'.HandsOut tiles n b := by
  rcases searchFreelist_cases globals hrep hn with
    hnone | ⟨left, right, length, -, b, h', rfl, hle, -, hsearch, hextent, htaken⟩
  · exact Or.inl hnone
  · refine Or.inr ⟨b, h', hsearch, hextent, ?_⟩
    rcases htaken with ⟨-, rfl, hrep'⟩ | ⟨hfit, rfl, hrep'⟩
    · exact ⟨_, length, hrep', hadj.use length, uses_whole hrep.positive, hle⟩
    · exact ⟨_, n, hrep', hadj.cut _ _, uses_tail hrep.positive hn hle, le_rfl⟩

theorem bump_represents (hrep : h.Represents tiles) (hn : 0 < n)
    (hroom : h.nextSegment + n ≤ h.numberOfCommittedSegments) :
    (h.bump n).Represents (tiles ++ [⟨n, true⟩]) := by
  have hspan := hrep.span_eq
  have hagree : h.AgreesOutside (h.bump n) h.nextSegment (h.nextSegment + n) := by
    intro i hout
    have hne : i ≠ h.nextSegment := by omega
    refine ⟨?_, ?_, segmap_markSegmapAsUsed_of_not_mem _ _ _ hout⟩
    · simp [bump, setBlock, hne]
    · simp [bump, setBlock, hne]
  refine ⟨⟨?_, ?_, hroom, ?_, ?_⟩, ?_, ?_⟩
  · rw [List.forall_mem_append]
    exact ⟨hrep.positive, by simpa using hn⟩
  · simp [hspan, bump]
  · rw [placed_append, List.forall_mem_append, Nat.zero_add, hspan]
    refine ⟨fun p hp => ?_, fun p hp => ?_⟩
    · have hbounds := mem_placed_bounds hp
      exact (hrep.holds p hp).congr hagree (hrep.positive _ (mem_placed_mem hp)) (by omega)
    · obtain rfl := List.mem_singleton.mp hp
      exact ⟨by simp [bump, setBlock], by simp [bump, setBlock], chains_markSegmapAsUsed _ _ hn⟩
  · intro i hle hlt
    have hle' : h.nextSegment + n ≤ i := hle
    rw [(hagree i (by omega)).2.2]
    exact hrep.unused i (by omega) hlt
  · rw [freeStarts_append, freeStarts_cons_used, freeStarts_nil, List.append_nil]
    refine LinkedSegment.congr (fun i hi => ?_) hrep.linked
    have hne : i ≠ h.nextSegment := by
      have := (freeStarts_bounds hrep.positive hi).2
      omega
    simp [linkOf, bump, setBlock, hne]
  · rw [freeLength_append, freeLength_cons_used, freeLength_nil]
    exact hrep.count

theorem numberOfSegments_pos {size : Nat} (hseg : h.segmentSize = 2 ^ h.log2SegmentSize)
    (hsize : 0 < size) : 0 < h.numberOfSegments size := by
  rw [numberOfSegments, Nat.shiftRight_eq_div_pow, ← hseg]
  have : 0 < h.segmentSize := hseg ▸ Nat.two_pow_pos _
  exact Nat.div_pos (by omega) this

/-- `allocate` returns, and a block it hands out is new. -/
theorem allocate_represents (globals : Globals) (hrep : h.Represents tiles)
    (hadj : NoAdjacentFree tiles)
    (hseg : h.segmentSize = 2 ^ h.log2SegmentSize) (size : Nat) :
    h.allocate globals size = some (none, h) ∨
      ∃ b h', h.allocate globals size = some (some (h'.allocatedSpace b), h') ∧
        h'.extent = { h.extent with nextSegment := h'.nextSegment } ∧
        h'.HandsOut tiles (h.numberOfSegments (size + sizeofHeapBlock)) b := by
  have hn : 0 < h.numberOfSegments (size + sizeofHeapBlock) :=
    numberOfSegments_pos hseg (by simp [sizeofHeapBlock])
  rcases searchFreelist_represents globals hrep hadj hn with
    hsearch | ⟨b, h', hsearch, hextent, hout⟩
  · generalize hlen : (if h.numberOfSegments (size + sizeofHeapBlock) <
      globals.codeCacheMinBlockLength then globals.codeCacheMinBlockLength
      else h.numberOfSegments (size + sizeofHeapBlock)) = length
    have hle : h.numberOfSegments (size + sizeofHeapBlock) ≤ length := by
      split at hlen <;> omega
    by_cases hroom : h.nextSegment + length ≤ h.numberOfCommittedSegments
    · right
      refine ⟨h.nextSegment, h.bump length, ?_, rfl, _, length,
        bump_represents hrep (by omega) hroom, ?_, ?_, hle⟩
      · simp only [allocate, hsearch, hlen, if_pos hroom]
        rfl
      · exact List.isChain_append.mpr ⟨hadj, List.isChain_singleton _, by simp⟩
      · refine ⟨fun tile _ hmem => ?_, fun place tile _ => by simp [hrep.span_eq]⟩
        have := mem_placed_bounds hmem
        have := hrep.positive tile (mem_placed_mem hmem)
        have := hrep.span_eq
        omega
    · left
      simp only [allocate, hsearch, hlen, if_neg hroom]
  · right
    refine ⟨b, h', ?_, ?_, hout⟩
    · simp only [allocate, hsearch]
    · have hnext : h'.nextSegment = h.nextSegment := congrArg Extent.nextSegment hextent
      rw [hextent, hnext]
      rfl

end HotSpot.CodeHeap
