import HotSpot.ParallelScavenge.ParallelCompactData

/-! # Summarizing a space

What the loop of `summarize` writes while the data fits into the target, in terms of the
numbers `R i` of live words in front of the regions. From this the new location of an
object: the target plus the live words in front of the object.
-/

namespace HotSpot

namespace ParallelCompactData

open Extent

/-- The number of regions other than itself to which a region's data goes. -/
def destCount (d : ParallelCompactData) (curRegion destAddr words : Nat) : Nat :=
  (if curRegion = d.addrToRegionIdx (destAddr + words - 1) then 0 else 1) +
    (if d.addrToRegionIdx destAddr ≠ d.addrToRegionIdx (destAddr + words - 1) then 1 else 0)

/-- `d'` is `d` after the regions from `cur` on, `k` of them, have been placed one behind
the other from `dest` on. -/
structure Placed (splitInfo : SplitInfo) (d : ParallelCompactData) (R : Nat → Nat)
    (cur k dest : Nat) (d' : ParallelCompactData) : Prop where
  start : d'.regionStart = d.regionStart
  partialObjSize : ∀ i, (d'.regionData i).partialObjSize = (d.regionData i).partialObjSize
  partialObjAddr : ∀ i, (d'.regionData i).partialObjAddr = (d.regionData i).partialObjAddr
  liveObjSize : ∀ i, (d'.regionData i).liveObjSize = (d.regionData i).liveObjSize
  destination : ∀ i, (d'.regionData i).destination =
    if cur ≤ i ∧ i < cur + k then dest + (R i - R cur) else (d.regionData i).destination
  source : ∀ i j, cur ≤ j → j < cur + k → dest + (R j - R cur) ≤ d.regionToAddr i →
    d.regionToAddr i < dest + (R (j + 1) - R cur) → (d'.regionData i).sourceRegion = j
  sourceOther : ∀ i, d.regionToAddr i < dest ∨ dest + (R (cur + k) - R cur) ≤ d.regionToAddr i →
    (d'.regionData i).sourceRegion = (d.regionData i).sourceRegion
  count : ∀ i, (d'.regionData i).destinationCount =
    if cur ≤ i ∧ i < cur + k ∧ R i < R (i + 1) then
      splitInfo.countAt i + d.destCount i (dest + (R i - R cur)) (R (i + 1) - R i)
    else (d.regionData i).destinationCount

variable {splitInfo : SplitInfo} {d d' d'' : ParallelCompactData} {R : Nat → Nat}
  {cur k dest : Nat}

theorem placed_zero : Placed splitInfo d R cur 0 dest d where
  start := rfl
  partialObjSize _ := rfl
  partialObjAddr _ := rfl
  liveObjSize _ := rfl
  destination i := by rw [if_neg (by omega)]
  source i j hlow hhigh := by omega
  sourceOther _ _ := rfl
  count i := by rw [if_neg (by omega)]

theorem Placed.regionToAddr (h : Placed splitInfo d R cur k dest d') (i : Nat) :
    d'.regionToAddr i = d.regionToAddr i := by
  rw [ParallelCompactData.regionToAddr, ParallelCompactData.regionToAddr, h.start]

theorem Placed.addrToRegionIdx (h : Placed splitInfo d R cur k dest d') (a : Nat) :
    d'.addrToRegionIdx a = d.addrToRegionIdx a := by
  rw [ParallelCompactData.addrToRegionIdx, ParallelCompactData.addrToRegionIdx, h.start]

theorem Placed.dataSize (h : Placed splitInfo d R cur k dest d') (i : Nat) :
    (d'.regionData i).dataSize = (d.regionData i).dataSize := by
  rw [RegionData.dataSize, RegionData.dataSize, h.partialObjSize, h.liveObjSize]

theorem destCount_congr (h : d'.regionStart = d.regionStart) : d'.destCount = d.destCount := by
  cases d
  cases d'
  cases h
  rfl

/-- One region in front of the others. -/
theorem Placed.cons (hmono : Monotone R) (h : Placed splitInfo d R cur 1 dest d')
    (h' : Placed splitInfo d' R (cur + 1) k (dest + (R (cur + 1) - R cur)) d'') :
    Placed splitInfo d R cur (k + 1) dest d'' where
  start := h'.start.trans h.start
  partialObjSize i := (h'.partialObjSize i).trans (h.partialObjSize i)
  partialObjAddr i := (h'.partialObjAddr i).trans (h.partialObjAddr i)
  liveObjSize i := (h'.liveObjSize i).trans (h.liveObjSize i)
  destination i := by
    rw [h'.destination, h.destination]
    split_ifs with hlater hnow <;> first | rfl | omega | skip
    · have h1 := hmono (by omega : cur ≤ cur + 1)
      have h2 := hmono (by omega : cur + 1 ≤ i)
      omega
  source i j hlow hhigh hfrom hto := by
    have h1 := hmono (by omega : cur ≤ cur + 1)
    rcases Nat.eq_or_lt_of_le hlow with rfl | hlater
    · rw [h'.sourceOther i (Or.inl (by rw [h.regionToAddr]; omega))]
      exact h.source i _ le_rfl (by omega) hfrom hto
    · have h2 := hmono (by omega : cur + 1 ≤ j)
      have h3 := hmono (by omega : j ≤ j + 1)
      exact h'.source i j hlater (by omega) (by rw [h.regionToAddr]; omega)
        (by rw [h.regionToAddr]; omega)
  sourceOther i hi := by
    have h1 := hmono (by omega : cur ≤ cur + 1)
    have h2 := hmono (by omega : cur + 1 ≤ cur + 1 + k)
    rw [show cur + (k + 1) = cur + 1 + k by omega] at hi
    rw [h'.sourceOther i (by rw [h.regionToAddr]; omega), h.sourceOther i (by omega)]
  count i := by
    rw [h'.count, h.count, destCount_congr h.start]
    by_cases hlater : cur + 1 ≤ i ∧ i < cur + 1 + k ∧ R i < R (i + 1)
    · have h1 := hmono (by omega : cur ≤ cur + 1)
      have h2 := hmono (by omega : cur + 1 ≤ i)
      rw [if_pos hlater, if_pos (by omega),
        show dest + (R (cur + 1) - R cur) + (R i - R (cur + 1)) = dest + (R i - R cur) by omega]
    · rw [if_neg hlater]
      by_cases hnow : cur ≤ i ∧ i < cur + 1 ∧ R i < R (i + 1)
      · rw [if_pos hnow, if_pos (by omega)]
      · rw [if_neg hnow, if_neg (by omega)]

/-- The region as the loop leaves it: its destination set, and placed if it has data. -/
def placeStep (d : ParallelCompactData) (splitInfo : SplitInfo) (cur dest : Nat) :
    ParallelCompactData :=
  let d := d.modifyRegion cur ({ · with destination := dest })
  let words := (d.regionData cur).dataSize
  if 0 < words then placeRegion d splitInfo cur dest words else d

/-- The region of the target whose first word the data of a region fills, if there is one. -/
def filledRegion (d : ParallelCompactData) (dest words : Nat) : Option Nat :=
  if d.addrToRegionIdx dest ≠ d.addrToRegionIdx (dest + words - 1) then
    some (d.addrToRegionIdx (dest + words - 1))
  else if regionOffset dest = 0 then some (d.addrToRegionIdx dest) else none

theorem filledRegion_congr (h : d'.regionStart = d.regionStart) :
    d'.filledRegion = d.filledRegion := by
  cases d
  cases d'
  cases h
  rfl

theorem filledRegion_eq_iff {words i : Nat} (hdest : d.regionStart ≤ dest) (hpos : 0 < words)
    (hwords : words ≤ 512) :
    d.filledRegion dest words = some i ↔
      dest ≤ d.regionToAddr i ∧ d.regionToAddr i < dest + words := by
  have haligned := d.aligned
  rw [filledRegion, regionOffset_eq, addrToRegionIdx_eq, addrToRegionIdx_eq, regionToAddr_eq]
  split_ifs <;> simp only [Option.some.injEq, false_iff] <;> omega

theorem updateSourceRegion_regionData (d : ParallelCompactData) (dest words i : Nat) :
    (d.updateSourceRegion cur dest words).regionData i =
      if d.filledRegion dest words = some i then { d.regionData i with sourceRegion := cur }
      else d.regionData i := by
  rw [updateSourceRegion, filledRegion]
  simp only
  have hmodify : ∀ region, (d.modifyRegion region ({ · with sourceRegion := cur })).regionData i =
      if some region = some i then { d.regionData i with sourceRegion := cur }
      else d.regionData i := by
    intro region
    by_cases hi : i = region
    · rw [hi, modifyRegion_self, if_pos rfl]
    · rw [modifyRegion_of_ne _ hi, if_neg fun h => hi (Option.some.inj h).symm]
  split
  next => exact hmodify _
  next =>
    split
    next => exact hmodify _
    next => rw [if_neg (by simp)]

@[simp] theorem regionStart_updateSourceRegion (d : ParallelCompactData) (dest words : Nat) :
    (d.updateSourceRegion cur dest words).regionStart = d.regionStart := by
  rw [updateSourceRegion]
  split_ifs <;> rfl

/-- The region that is split becomes the source of the second region that the part split off
goes to. -/
def splitSource (d : ParallelCompactData) (splitInfo : SplitInfo) (cur : Nat) :
    ParallelCompactData :=
  if splitInfo.IsSplit cur ∧ splitInfo.destinationCount = 2 then
    d.modifyRegion (d.addrToRegionIdx splitInfo.destRegionAddr) ({ · with sourceRegion := cur })
  else d

theorem splitSource_of_not_split (hsplit : ¬splitInfo.IsSplit cur) :
    d.splitSource splitInfo cur = d := if_neg fun h => hsplit h.1

@[simp] theorem regionStart_splitSource :
    (d.splitSource splitInfo cur).regionStart = d.regionStart := by
  rw [splitSource]
  split <;> rfl

/-- Only the source region may change. -/
theorem splitSource_regionData (i : Nat) :
    (d.splitSource splitInfo cur).regionData i = { d.regionData i with
      sourceRegion := ((d.splitSource splitInfo cur).regionData i).sourceRegion } := by
  rw [splitSource]
  split
  next =>
    by_cases hi : i = d.addrToRegionIdx splitInfo.destRegionAddr
    · rw [hi, modifyRegion_self]
    · rw [modifyRegion_of_ne _ hi]
  next => rfl

theorem placeRegion_eq {words : Nat} :
    placeRegion d splitInfo cur dest words =
      ((d.splitSource splitInfo cur).updateSourceRegion cur dest words).modifyRegion cur
        (·.setDestinationCount (splitInfo.countAt cur + d.destCount cur dest words)) := by
  rw [placeRegion, splitSource, SplitInfo.countAt]
  by_cases hsplit : splitInfo.IsSplit cur
  · by_cases htwo : splitInfo.destinationCount = 2
    · simp only [hsplit, htwo, and_self, if_true, addrToRegionIdx_modifyRegion, destCount,
        Nat.add_assoc]
    · simp only [hsplit, htwo, and_false, if_true, if_false, destCount, Nat.add_assoc]
  · simp only [hsplit, false_and, if_false, destCount, Nat.add_assoc]

/-- The fields of a region after the step for `cur`, where `filled` is the region of the target
that it becomes the source of. -/
theorem placeStep_regionData {words : Nat} (hwords : (d.regionData cur).dataSize = words)
    (hpos : 0 < words) (i : Nat) :
    (placeStep d splitInfo cur dest).regionData i =
      { destination := if i = cur then dest else (d.regionData i).destination
        sourceRegion := if d.filledRegion dest words = some i then cur
          else ((d.splitSource splitInfo cur).regionData i).sourceRegion
        partialObjAddr := (d.regionData i).partialObjAddr
        partialObjSize := (d.regionData i).partialObjSize
        dcAndLos := if i = cur then
          ((d.regionData i).setDestinationCount
            (splitInfo.countAt cur + d.destCount cur dest words)).dcAndLos
          else (d.regionData i).dcAndLos } := by
  have hsame : ((d.modifyRegion cur ({ · with destination := dest })).regionData cur).dataSize =
      words := by rw [modifyRegion_self, ← hwords]; rfl
  have hfilled : ((d.modifyRegion cur ({ · with destination := dest })).splitSource splitInfo
      cur).filledRegion dest words = d.filledRegion dest words := by
    rw [filledRegion_congr regionStart_splitSource,
      filledRegion_congr (regionStart_modifyRegion ..)]
  have hsource : (((d.modifyRegion cur ({ · with destination := dest })).splitSource splitInfo
      cur).regionData i).sourceRegion =
        ((d.splitSource splitInfo cur).regionData i).sourceRegion := by
    simp only [splitSource, addrToRegionIdx_modifyRegion]
    split_ifs
    · simp only [modifyRegion]
      split_ifs <;> rfl
    · simp only [modifyRegion]
      split_ifs <;> rfl
  rw [placeStep]
  simp only [hsame]
  rw [if_pos hpos, placeRegion_eq]
  by_cases hi : i = cur
  · subst hi
    rw [modifyRegion_self, updateSourceRegion_regionData, hfilled, splitSource_regionData,
      modifyRegion_self, hsource, if_pos rfl, if_pos rfl]
    split_ifs <;> rfl
  · rw [modifyRegion_of_ne _ hi, updateSourceRegion_regionData, hfilled, splitSource_regionData,
      modifyRegion_of_ne _ hi, hsource, if_neg hi, if_neg hi]
    split_ifs <;> rfl

theorem placeStep_of_empty (hzero : (d.regionData cur).dataSize = 0) :
    placeStep d splitInfo cur dest = d.modifyRegion cur ({ · with destination := dest }) := by
  rw [placeStep]
  refine if_neg ?_
  rw [modifyRegion_self]
  exact Nat.not_lt.mpr hzero.le

theorem placeStep_regionData_of_empty
    (hzero : (d.regionData cur).dataSize = 0) (i : Nat) :
    (placeStep d splitInfo cur dest).regionData i =
      { destination := if i = cur then dest else (d.regionData i).destination
        sourceRegion := (d.regionData i).sourceRegion
        partialObjAddr := (d.regionData i).partialObjAddr
        partialObjSize := (d.regionData i).partialObjSize
        dcAndLos := (d.regionData i).dcAndLos } := by
  rw [placeStep_of_empty hzero]
  by_cases hi : i = cur
  · rw [hi, modifyRegion_self, if_pos rfl]
  · rw [modifyRegion_of_ne _ hi, if_neg hi]

theorem regionStart_placeStep : (placeStep d splitInfo cur dest).regionStart = d.regionStart := by
  rw [placeStep]
  split
  next =>
    rw [placeRegion_eq, regionStart_modifyRegion, regionStart_updateSourceRegion,
      regionStart_splitSource, regionStart_modifyRegion]
  next => rfl

/-- The destination of the one region that is placed. -/
theorem destination_one (i old : Nat) :
    (if i = cur then dest else old) =
      if cur ≤ i ∧ i < cur + 1 then dest + (R i - R cur) else old := by
  by_cases hi : i = cur
  · rw [if_pos hi, if_pos (by omega), hi, Nat.sub_self, Nat.add_zero]
  · rw [if_neg hi, if_neg (by omega)]

/-- Placing one region. -/
theorem placed_placeStep (hsplit : splitInfo.IsSplit cur → 0 < (d.regionData cur).dataSize)
    (hdest : d.regionStart ≤ dest) (hdata : R cur + (d.regionData cur).dataSize = R (cur + 1))
    (hsize : (d.regionData cur).dataSize ≤ 512) :
    Placed splitInfo (d.splitSource splitInfo cur) R cur 1 dest
      (placeStep d splitInfo cur dest) := by
  have hstart : (placeStep d splitInfo cur dest).regionStart =
      (d.splitSource splitInfo cur).regionStart :=
    regionStart_placeStep.trans regionStart_splitSource.symm
  have hto : ∀ i, (d.splitSource splitInfo cur).regionToAddr i = d.regionToAddr i := by
    intro i
    rw [regionToAddr, regionToAddr, regionStart_splitSource]
  rcases Nat.eq_zero_or_pos (d.regionData cur).dataSize with hzero | hpos
  · -- an empty region only gets a destination
    have hsame : d.splitSource splitInfo cur = d :=
      splitSource_of_not_split fun h => (hsplit h).ne' hzero
    have hfield := @placeStep_regionData_of_empty splitInfo d cur dest hzero
    rw [hsame]
    refine ⟨regionStart_placeStep, fun i => ?_, fun i => ?_, fun i => ?_, fun i => ?_,
      fun i j hlow hhigh hfrom hto => ?_, fun i _ => ?_, fun i => ?_⟩
    · rw [hfield]
    · rw [hfield]
    · rw [hfield, RegionData.liveObjSize, RegionData.liveObjSize]
    · rw [hfield]
      exact destination_one i _
    · obtain rfl : j = cur := by omega
      omega
    · rw [hfield]
    · have hnone : ¬(cur ≤ i ∧ i < cur + 1 ∧ R i < R (i + 1)) := by
        rintro ⟨h1, h2, h3⟩
        obtain rfl : i = cur := by omega
        omega
      rw [if_neg hnone, RegionData.destinationCount, hfield, RegionData.destinationCount]
  · have hfield := @placeStep_regionData splitInfo d cur dest _ rfl hpos
    have hbefore := @splitSource_regionData splitInfo d cur
    have hfilled := fun i => @filledRegion_eq_iff d dest _ i hdest hpos hsize
    refine ⟨hstart, fun i => ?_, fun i => ?_, fun i => ?_, fun i => ?_,
      fun i j hlow hhigh hfrom hto' => ?_, fun i hi => ?_, fun i => ?_⟩
    · rw [hfield, hbefore]
    · rw [hfield, hbefore]
    · rw [RegionData.liveObjSize, hfield, hbefore]
      simp only
      split_ifs with hi
      · exact RegionData.liveObjSize_setDestinationCount ..
      · rfl
    · rw [hfield, hbefore]
      exact destination_one i _
    · obtain rfl : j = cur := by omega
      rw [hto] at hfrom hto'
      rw [hfield]
      exact if_pos ((hfilled i).mpr ⟨by omega, by omega⟩)
    · rw [hto] at hi
      rw [hfield]
      refine if_neg fun hfill => ?_
      have := (hfilled i).mp hfill
      omega
    · rw [RegionData.destinationCount, hfield, destCount_congr regionStart_splitSource, hbefore]
      simp only
      by_cases hi : i = cur
      · subst hi
        rw [if_pos rfl, if_pos ⟨le_rfl, by omega, by omega⟩,
          show R (i + 1) - R i = (d.regionData i).dataSize by omega, Nat.sub_self, Nat.add_zero]
        exact RegionData.destinationCount_setDestinationCount ..
      · rw [if_neg hi, if_neg (by omega)]
        rfl

/-- One round of the loop, for a region that fits. -/
theorem summarizeLoop_succ {targetEnd count words : Nat}
    (hwords : (d.regionData cur).dataSize = words) (hfits : dest + words ≤ targetEnd) :
    summarizeLoop splitInfo targetEnd (count + 1) cur dest d =
      summarizeLoop splitInfo targetEnd count (cur + 1) (dest + words)
        (placeStep d splitInfo cur dest) := by
  have hsame : ((d.modifyRegion cur ({ · with destination := dest })).regionData cur).dataSize =
      words := by
    rw [modifyRegion_self]
    exact hwords
  rw [summarizeLoop, placeStep]
  simp only [hsame]
  by_cases hpos : 0 < words
  · rw [if_pos hpos, if_pos hpos, if_neg (by omega)]
  · obtain rfl : words = 0 := by omega
    simp only [Nat.add_zero, lt_irrefl, if_false]

/-- As long as the data fits, the loop places the regions. -/
theorem summarizeLoop_placed {targetEnd rest : Nat} (hmono : Monotone R)
    (hsplit : ∀ i, cur ≤ i → i < cur + k → ¬splitInfo.IsSplit i)
    (hdata : ∀ i, cur ≤ i → i < cur + k → R i + (d.regionData i).dataSize = R (i + 1))
    (hsize : ∀ i, cur ≤ i → i < cur + k → (d.regionData i).dataSize ≤ 512)
    (hdest : d.regionStart ≤ dest) (hfits : dest + (R (cur + k) - R cur) ≤ targetEnd) :
    ∃ d', Placed splitInfo d R cur k dest d' ∧
      summarizeLoop splitInfo targetEnd (k + rest) cur dest d =
        summarizeLoop splitInfo targetEnd rest (cur + k) (dest + (R (cur + k) - R cur)) d' := by
  induction k generalizing cur dest d with
  | zero =>
    refine ⟨d, placed_zero, ?_⟩
    rw [Nat.zero_add, Nat.add_zero, Nat.sub_self, Nat.add_zero]
  | succ k ih =>
    have hcur := hdata cur le_rfl (by omega)
    have hstep := placed_placeStep (fun h => absurd h (hsplit cur le_rfl (by omega))) hdest hcur
      (hsize cur le_rfl (by omega))
    rw [splitSource_of_not_split (hsplit cur le_rfl (by omega))] at hstep
    have h1 := hmono (by omega : cur ≤ cur + 1)
    have h2 := hmono (by omega : cur + 1 ≤ cur + 1 + k)
    rw [show cur + (k + 1) = cur + 1 + k by omega] at hfits
    obtain ⟨d', hplaced, heq⟩ := @ih (placeStep d splitInfo cur dest) (cur + 1)
      (dest + (R (cur + 1) - R cur)) (fun i hi hi' => hsplit i (by omega) (by omega))
      (fun i hi hi' => by rw [hstep.dataSize]; exact hdata i (by omega) (by omega))
      (fun i hi hi' => by rw [hstep.dataSize]; exact hsize i (by omega) (by omega))
      (by rw [hstep.start]; omega) (by omega)
    refine ⟨d', hstep.cons hmono hplaced, ?_⟩
    rw [show cur + (k + 1) = cur + 1 + k by omega,
      show dest + (R (cur + 1 + k) - R cur) =
        dest + (R (cur + 1) - R cur) + (R (cur + 1 + k) - R (cur + 1)) by omega, ← heq,
      show k + 1 + rest = k + rest + 1 by omega]
    exact summarizeLoop_succ (by omega) (by omega)

/-! ## The new location of an object -/

section NewPointer

variable {objs : List Extent} {o : Extent} {x : Nat}

/-- In a region in which an object starts, the object from before ends in front of it. -/
theorem spill_cut (hapart : objs.Pairwise Apart) (ho : o ∈ objs) (hlen : ∀ o ∈ objs, 0 < o.len)
    (hlow : x ≤ o.addr) (hhigh : o.addr < x + 512) :
    x + spill objs x ≤ o.addr ∧ rank objs (x + spill objs x) = rank objs x + spill objs x ∧
      (∀ o' ∈ objs, o'.limit ≤ x + spill objs x ∨ x + spill objs x ≤ o'.addr) ∧
      ∀ o' ∈ objs, x ≤ o'.addr → x + spill objs x ≤ o'.addr := by
  by_cases hext : ∃ p ∈ objs, p.addr < x ∧ x < p.limit
  · obtain ⟨p, hp, hpx, hxp⟩ := hext
    have happart := apart_of_mem hapart hp ho (by rintro rfl; omega)
    have hoLen := hlen o ho
    have hpo : p.limit ≤ o.addr := by
      simp only [Apart, limit] at *
      omega
    have hspill : spill objs x = p.limit - x := by
      rw [spill_of_mem hapart hp hpx hxp]
      omega
    have hcut : x + spill objs x = p.limit := by omega
    rw [hcut]
    refine ⟨hpo, ?_, fun o' ho' => ?_, fun o' ho' hx' => ?_⟩
    · have h1 : rank objs x = rank objs p.addr + (x - p.addr) :=
        rank_of_mem hapart hp (by omega) (by omega)
      have h2 : rank objs p.limit = rank objs p.addr + (p.limit - p.addr) :=
        rank_of_mem hapart hp (by omega) le_rfl
      omega
    · by_cases hsame : p = o'
      · exact Or.inl (hsame ▸ le_rfl)
      · have := apart_of_mem hapart hp ho' hsame
        simp only [Apart, limit] at *
        omega
    · have := apart_of_mem hapart hp ho' (by rintro rfl; omega)
      have := hlen o' ho'
      simp only [Apart, limit] at *
      omega
  · have hnone : ∀ o' ∈ objs, o'.limit ≤ x ∨ x ≤ o'.addr := by
      intro o' ho'
      by_contra h
      exact hext ⟨o', ho', by omega, by omega⟩
    rw [spill_eq_zero hnone, Nat.add_zero]
    exact ⟨hlow, rfl, hnone, fun _ _ h => h⟩

/-- `calc_new_pointer`: the destination of the region plus the live words in front of the
object in it, of which those of the partial object may have been split off. -/
theorem calcNewPointer_eq {m : ParMarkBitMap} {size : Nat} (hmarks : m.Marks size objs)
    (hapart : objs.Pairwise Apart) (hin : ∀ o ∈ objs, m.InHeap size o)
    (hstart : m.regionStart = d.regionStart) (ho : o ∈ objs) {i : Nat}
    (hi : d.addrToRegionIdx o.addr = i)
    (hlive : (d.regionData i).liveObjSize = started objs (d.regionToAddr i))
    (hspillSize : (d.regionData i).partialObjSize = spill objs (d.regionToAddr i) ∨
      (d.regionData i).partialObjSize = 0) :
    d.calcNewPointer m o.addr = some ((d.regionData i).destination + (rank objs o.addr -
      rank objs (d.regionToAddr i +
        (spill objs (d.regionToAddr i) - (d.regionData i).partialObjSize)))) := by
  have hbounds := hin o ho
  have hregion := (addrToRegionIdx_eq_iff (hstart ▸ hbounds.1)).mp hi
  have hnext : d.regionToAddr (i + 1) = d.regionToAddr i + 512 := by
    rw [regionToAddr_eq, regionToAddr_eq]
    omega
  rw [hnext] at hregion
  have hmin : d.regionStart ≤ d.regionToAddr i := by rw [regionToAddr_eq]; omega
  have hsum := @spill_add_started objs (d.regionToAddr i)
  have hcovered := covered_le hapart (by omega : d.regionToAddr i ≤ d.regionToAddr i + 512)
  obtain ⟨hle, hrank, hcut, hnone⟩ := spill_cut hapart ho (fun o ho => (hin o ho).2.1) hregion.1
    hregion.2
  have hmono := @rank_mono objs _ _ hle
  rw [calcNewPointer, regionAlignDown_eq (hstart ▸ hbounds.1), hi]
  simp only [RegionData.dataSize, hlive, show regionSize = 512 from rfl]
  split
  next hfull =>
    -- every word of the region is live
    have hspill : (d.regionData i).partialObjSize = spill objs (d.regionToAddr i) := by omega
    have htotal := @rank_add_covered objs (d.regionToAddr i) (d.regionToAddr i + 512) (by omega)
    have hafter := rank_le_add hapart (by omega : o.addr ≤ d.regionToAddr i + 512)
    have hbefore := rank_le_add hapart hregion.1
    rw [hspill, Nat.sub_self, Nat.add_zero]
    congr 1
    omega
  next hsome =>
    rw [ParMarkBitMap.liveWordsInRange_eq hmarks hapart hin ho (by omega) (by omega) hle hcut
      (fun o' ho' h => hnone o' ho' (by omega))]
    simp only [Option.bind_eq_bind, Option.bind_some, Option.pure_def]
    congr 1
    rcases hspillSize with hspill | hzero
    · rw [hspill, Nat.sub_self, Nat.add_zero]
      omega
    · rw [hzero, Nat.zero_add, Nat.sub_zero]

end NewPointer

end ParallelCompactData

end HotSpot
