import Mathlib

/-! # Tilings of an interval

A list of tiles, each of a length and either used or free, laid side by side.
Where a tile lies follows from the lengths of those before it.
-/

namespace HotSpot

structure Tile where
  length : Nat
  used : Bool

namespace Tiling

/-- The length of the interval that the tiles cover. -/
def span (tiles : List Tile) : Nat := (tiles.map Tile.length).sum

/-- The tiles with the places where they start, when the first starts at `start`. -/
def placed : Nat → List Tile → List (Nat × Tile)
  | _, [] => []
  | start, tile :: tiles => (start, tile) :: placed (start + tile.length) tiles

/-- The places where the free tiles start. -/
def freeStarts : Nat → List Tile → List Nat
  | _, [] => []
  | start, tile :: tiles =>
    if tile.used then freeStarts (start + tile.length) tiles
    else start :: freeStarts (start + tile.length) tiles

/-- The places where the used tiles start. -/
def usedStarts : Nat → List Tile → List Nat
  | _, [] => []
  | start, tile :: tiles =>
    if tile.used then start :: usedStarts (start + tile.length) tiles
    else usedStarts (start + tile.length) tiles

/-- The sum of the lengths of the free tiles. -/
def freeLength (tiles : List Tile) : Nat :=
  (tiles.map fun tile => if tile.used then 0 else tile.length).sum

/-- Of two neighbours at least one is used. -/
def NoAdjacentFree (tiles : List Tile) : Prop :=
  tiles.IsChain fun left right => left.used = true ∨ right.used = true

variable {tiles left right : List Tile} {tile : Tile} {start place : Nat}

@[simp] theorem span_nil : span [] = 0 := rfl

@[simp] theorem span_cons : span (tile :: tiles) = tile.length + span tiles := by
  simp [span]

@[simp] theorem span_append : span (left ++ right) = span left + span right := by
  simp [span]

@[simp] theorem placed_nil : placed start [] = [] := rfl

@[simp] theorem placed_cons :
    placed start (tile :: tiles) = (start, tile) :: placed (start + tile.length) tiles := rfl

@[simp] theorem placed_append :
    placed start (left ++ right) = placed start left ++ placed (start + span left) right := by
  induction left generalizing start with
  | nil => simp
  | cons tile left ih => simp [ih, Nat.add_assoc]

theorem map_snd_placed (start : Nat) (tiles : List Tile) :
    (placed start tiles).map Prod.snd = tiles := by
  induction tiles generalizing start with
  | nil => rfl
  | cons head tail ih => simp [ih]

@[simp] theorem freeStarts_nil : freeStarts start [] = [] := rfl

@[simp] theorem freeStarts_cons_used {length : Nat} :
    freeStarts start (⟨length, true⟩ :: tiles) = freeStarts (start + length) tiles := rfl

@[simp] theorem freeStarts_cons_free {length : Nat} :
    freeStarts start (⟨length, false⟩ :: tiles) =
      start :: freeStarts (start + length) tiles := rfl

@[simp] theorem freeStarts_append :
    freeStarts start (left ++ right) =
      freeStarts start left ++ freeStarts (start + span left) right := by
  induction left generalizing start with
  | nil => simp
  | cons tile left ih =>
    cases h : tile.used <;> simp [freeStarts, h, ih, Nat.add_assoc]

@[simp] theorem freeLength_nil : freeLength [] = 0 := rfl

@[simp] theorem freeLength_cons_used {length : Nat} :
    freeLength (⟨length, true⟩ :: tiles) = freeLength tiles := by simp [freeLength]

@[simp] theorem freeLength_cons_free {length : Nat} :
    freeLength (⟨length, false⟩ :: tiles) = length + freeLength tiles := by simp [freeLength]

@[simp] theorem freeLength_append :
    freeLength (left ++ right) = freeLength left + freeLength right := by
  simp [freeLength]

/-- A placed tile lies inside the interval. -/
theorem mem_placed_bounds (hmem : (place, tile) ∈ placed start tiles) :
    start ≤ place ∧ place + tile.length ≤ start + span tiles := by
  induction tiles generalizing start with
  | nil => simp at hmem
  | cons head tail ih =>
    rw [placed_cons, List.mem_cons] at hmem
    rw [span_cons]
    rcases hmem with heq | htail
    · obtain ⟨rfl, rfl⟩ := Prod.mk.inj heq
      omega
    · have := ih htail
      omega

/-- Two placed tiles are the same or do not overlap. -/
theorem placed_apart {place' : Nat} {tile' : Tile} (hmem : (place, tile) ∈ placed start tiles)
    (hmem' : (place', tile') ∈ placed start tiles) :
    (place, tile) = (place', tile') ∨ place + tile.length ≤ place' ∨
      place' + tile'.length ≤ place := by
  induction tiles generalizing start with
  | nil => simp at hmem
  | cons head tail ih =>
    rw [placed_cons, List.mem_cons] at hmem hmem'
    rcases hmem with heq | hmem <;> rcases hmem' with heq' | hmem'
    · exact Or.inl (heq.trans heq'.symm)
    · obtain ⟨rfl, rfl⟩ := Prod.mk.inj heq
      exact Or.inr (Or.inl (mem_placed_bounds hmem').1)
    · obtain ⟨rfl, rfl⟩ := Prod.mk.inj heq'
      exact Or.inr (Or.inr (mem_placed_bounds hmem).1)
    · exact ih hmem hmem'

theorem mem_placed_split (hmem : (place, tile) ∈ placed start tiles) :
    ∃ left right, tiles = left ++ tile :: right ∧ place = start + span left := by
  induction tiles generalizing start with
  | nil => simp at hmem
  | cons head tail ih =>
    rw [placed_cons, List.mem_cons] at hmem
    rcases hmem with heq | htail
    · obtain ⟨rfl, rfl⟩ := Prod.mk.inj heq
      exact ⟨[], tail, rfl, by simp⟩
    · obtain ⟨left, right, rfl, rfl⟩ := ih htail
      exact ⟨head :: left, right, rfl, by simp [Nat.add_assoc]⟩

theorem mem_placed_mem (hmem : (place, tile) ∈ placed start tiles) : tile ∈ tiles := by
  obtain ⟨left, right, rfl, -⟩ := mem_placed_split hmem
  simp

/-- Every point of the interval lies in a tile. -/
theorem exists_placed_of_lt {point : Nat} (hle : start ≤ point) (hlt : point < start + span tiles) :
    ∃ place tile, (place, tile) ∈ placed start tiles ∧
      place ≤ point ∧ point < place + tile.length := by
  induction tiles generalizing start with
  | nil => simp at hlt; omega
  | cons head tail ih =>
    rw [span_cons] at hlt
    by_cases hhead : point < start + head.length
    · exact ⟨start, head, List.mem_cons_self, hle, hhead⟩
    · obtain ⟨place, tile, hmem, hin⟩ := ih (by omega : start + head.length ≤ point) (by omega)
      exact ⟨place, tile, List.mem_cons_of_mem _ hmem, hin⟩

theorem freeStarts_eq_map_filter :
    freeStarts start tiles = ((placed start tiles).filter (!·.2.used)).map Prod.fst := by
  induction tiles generalizing start with
  | nil => rfl
  | cons head tail ih => cases h : head.used <;> simp [freeStarts, h, ih]

theorem mem_freeStarts :
    place ∈ freeStarts start tiles ↔
      ∃ tile, (place, tile) ∈ placed start tiles ∧ tile.used = false := by
  simp [freeStarts_eq_map_filter]

theorem mem_usedStarts :
    place ∈ usedStarts start tiles ↔
      ∃ tile, (place, tile) ∈ placed start tiles ∧ tile.used = true := by
  induction tiles generalizing start with
  | nil => simp [usedStarts]
  | cons head tail ih =>
    cases h : head.used with
    | true => simp [usedStarts, h, ih]; grind
    | false => simp [usedStarts, h, ih]; grind

theorem usedStarts_sorted (start : Nat) (hpos : ∀ tile ∈ tiles, 0 < tile.length) :
    (usedStarts start tiles).Pairwise (· < ·) := by
  induction tiles generalizing start with
  | nil => exact List.Pairwise.nil
  | cons head tail ih =>
    rw [List.forall_mem_cons] at hpos
    cases h : head.used with
    | false => simpa [usedStarts, h] using ih _ hpos.2
    | true =>
      rw [usedStarts, if_pos h]
      refine List.pairwise_cons.mpr ⟨fun place hplace => ?_, ih _ hpos.2⟩
      obtain ⟨tile, hmem, -⟩ := mem_usedStarts.mp hplace
      have := (mem_placed_bounds hmem).1
      omega

theorem freeStarts_bounds (hpos : ∀ tile ∈ tiles, 0 < tile.length)
    (hmem : place ∈ freeStarts start tiles) : start ≤ place ∧ place < start + span tiles := by
  obtain ⟨tile, hplaced, -⟩ := mem_freeStarts.mp hmem
  have hbounds := mem_placed_bounds hplaced
  have := hpos tile (mem_placed_mem hplaced)
  omega

theorem freeStarts_sorted (start : Nat) (hpos : ∀ tile ∈ tiles, 0 < tile.length) :
    (freeStarts start tiles).Pairwise (· < ·) := by
  induction tiles generalizing start with
  | nil => exact List.Pairwise.nil
  | cons head tail ih =>
    rw [List.forall_mem_cons] at hpos
    cases h : head.used with
    | true => simpa [freeStarts, h] using ih _ hpos.2
    | false =>
      rw [freeStarts, if_neg (by simp [h])]
      refine List.pairwise_cons.mpr ⟨fun place hplace => ?_, ih _ hpos.2⟩
      have := (freeStarts_bounds hpos.2 hplace).1
      omega

/-- A free place cuts the tiles at its tile. -/
theorem freeStarts_split {before after : List Nat}
    (heq : freeStarts start tiles = before ++ place :: after) :
    ∃ left right length, tiles = left ++ ⟨length, false⟩ :: right ∧
      place = start + span left ∧ freeStarts start left = before ∧
      freeStarts (place + length) right = after := by
  induction tiles generalizing start before with
  | nil => simp at heq
  | cons head tail ih =>
    obtain ⟨length, used⟩ := head
    cases used with
    | true =>
      obtain ⟨left, right, last, rfl, hplace, hbefore, hafter⟩ := ih heq
      exact ⟨⟨length, true⟩ :: left, right, last, rfl, by simp [hplace, Nat.add_assoc],
        hbefore, hafter⟩
    | false =>
      rw [freeStarts_cons_free] at heq
      cases before with
      | nil =>
        obtain ⟨rfl, htail⟩ := List.cons.inj heq
        exact ⟨[], tail, length, rfl, by simp, rfl, htail⟩
      | cons first before =>
        obtain ⟨rfl, htail⟩ := List.cons.inj heq
        obtain ⟨left, right, last, rfl, hplace, hbefore, hafter⟩ := ih htail
        exact ⟨⟨length, false⟩ :: left, right, last, rfl, by simp [hplace, Nat.add_assoc],
          by simp [hbefore], hafter⟩

theorem used_of_freeStarts_eq_nil (hnil : freeStarts start tiles = []) :
    ∀ tile ∈ tiles, tile.used = true := by
  intro tile htile
  by_contra hfree
  obtain ⟨left, right, rfl⟩ := List.append_of_mem htile
  simp [freeStarts, hfree] at hnil

theorem length_freeStarts_le (start : Nat) (hpos : ∀ tile ∈ tiles, 0 < tile.length) :
    (freeStarts start tiles).length ≤ span tiles := by
  induction tiles generalizing start with
  | nil => simp
  | cons head tail ih =>
    have hhead := hpos head List.mem_cons_self
    have htail := ih (start + head.length)
      fun tile htile => hpos tile (List.mem_cons_of_mem _ htile)
    rw [span_cons]
    cases h : head.used <;> simp [freeStarts, h] <;> omega

/-! ## Joining free tiles -/

/-- A free tile of length `length` in front of the tiles, joined with the first
of them when that is free. -/
def absorb (length : Nat) : List Tile → List Tile
  | [] => [⟨length, false⟩]
  | tile :: tiles =>
    if tile.used then ⟨length, false⟩ :: tile :: tiles
    else ⟨length + tile.length, false⟩ :: tiles

@[simp] theorem span_absorb {length : Nat} :
    span (absorb length tiles) = length + span tiles := by
  cases tiles with
  | nil => rfl
  | cons head tail => cases h : head.used <;> simp [absorb, h, Nat.add_assoc]

/-- Joining tiles makes none of them shorter. -/
theorem le_length_absorb {length m : Nat} (hlength : m ≤ length)
    (hle : ∀ tile ∈ tiles, m ≤ tile.length) : ∀ tile ∈ absorb length tiles, m ≤ tile.length := by
  cases tiles with
  | nil => simpa [absorb] using hlength
  | cons head tail =>
    rw [List.forall_mem_cons] at hle
    cases h : head.used with
    | true => simpa [absorb, h, hlength] using hle
    | false => simpa [absorb, h] using ⟨by omega, hle.2⟩

/-- Joining free tiles leaves the used ones where they are. -/
theorem mem_placed_absorb_used {length : Nat} (hused : tile.used = true) :
    (place, tile) ∈ placed start (absorb length tiles) ↔
      (place, tile) ∈ placed (start + length) tiles := by
  have hne : ∀ (other : Tile), other.used = false → tile ≠ other := by
    rintro other hother rfl
    simp [hused] at hother
  cases tiles with
  | nil => simp [absorb, hne]
  | cons head tail =>
    cases h : head.used with
    | true => simp [absorb, h, hne]
    | false => simp [absorb, h, hne, Nat.add_assoc]

theorem noAdjacentFree_absorb {length : Nat} (htiles : NoAdjacentFree tiles) :
    NoAdjacentFree (absorb length tiles) := by
  cases tiles with
  | nil => exact List.isChain_singleton _
  | cons head tail =>
    by_cases hused : head.used = true
    · rw [absorb, if_pos hused]
      exact List.isChain_cons_cons.mpr ⟨Or.inr hused, htiles⟩
    · rw [absorb, if_neg hused]
      cases tail with
      | nil => exact List.isChain_singleton _
      | cons second rest =>
        obtain ⟨hpair, hrest⟩ := List.isChain_cons_cons.mp htiles
        exact List.isChain_cons_cons.mpr ⟨Or.inr (hpair.resolve_left hused), hrest⟩

theorem NoAdjacentFree.append (hleft : NoAdjacentFree left) (hright : NoAdjacentFree right)
    (hlast : ∀ tile ∈ left.getLast?, tile.used = true) : NoAdjacentFree (left ++ right) :=
  List.isChain_append.mpr ⟨hleft, hright, fun tile htile _ _ => Or.inl (hlast tile htile)⟩

theorem noAdjacentFree_of_used (hused : ∀ tile ∈ tiles, tile.used = true) :
    NoAdjacentFree tiles := by
  induction tiles with
  | nil => exact List.isChain_nil
  | cons head tail ih =>
    cases tail with
    | nil => exact List.isChain_singleton _
    | cons second rest =>
      rw [List.forall_mem_cons] at hused
      exact List.isChain_cons_cons.mpr ⟨Or.inl hused.1, ih hused.2⟩

/-- In front of a free tile there is a used one. -/
theorem NoAdjacentFree.last_used {length : Nat}
    (h : NoAdjacentFree (left ++ ⟨length, false⟩ :: right)) :
    ∀ tile ∈ left.getLast?, tile.used = true := by
  intro tile htile
  have hpair := (List.isChain_append.mp h).2.2 tile htile ⟨length, false⟩ (by simp)
  simpa using hpair

/-- Using a free tile, or cutting a used one off its end, keeps neighbours apart. -/
theorem NoAdjacentFree.use {length : Nat}
    (h : NoAdjacentFree (left ++ ⟨length, false⟩ :: right)) (length' : Nat) :
    NoAdjacentFree (left ++ ⟨length', true⟩ :: right) := by
  obtain ⟨hleft, hright, -⟩ := List.isChain_append.mp h
  refine NoAdjacentFree.append hleft ?_ h.last_used
  cases right with
  | nil => exact List.isChain_singleton _
  | cons head tail => exact List.isChain_cons_cons.mpr ⟨Or.inl rfl, hright.tail⟩

theorem NoAdjacentFree.cut {length : Nat}
    (h : NoAdjacentFree (left ++ ⟨length, false⟩ :: right)) (front back : Nat) :
    NoAdjacentFree (left ++ ⟨front, false⟩ :: ⟨back, true⟩ :: right) := by
  have huse := h.use back
  refine NoAdjacentFree.append (List.isChain_append.mp h).1 ?_ h.last_used
  exact List.isChain_cons_cons.mpr ⟨Or.inr rfl, (List.isChain_append.mp huse).2.1⟩

end Tiling

end HotSpot
