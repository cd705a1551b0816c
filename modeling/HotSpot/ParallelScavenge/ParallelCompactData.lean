import HotSpot.ParallelScavenge.ParMarkBitMap
import Mathlib

/-! # Summary data

`ParallelCompactData` of `psParallelCompact.hpp`: for each region of the heap how much
live data it holds and where this data will go. Marking adds the objects; the summary
phase then walks over the regions of a space and gives each the address that its
first live word will have.
-/

namespace HotSpot

def log2RegionSize : Nat := 9
def regionSize : Nat := 1 <<< log2RegionSize

/-- Destination count and live size share a word. -/
def dcShift : Nat := 27

structure RegionData where
  destination : Nat
  sourceRegion : Nat
  partialObjAddr : Nat
  partialObjSize : Nat
  dcAndLos : Nat
  deriving DecidableEq, Repr, Inhabited

namespace RegionData

variable (r : RegionData)

def liveObjSize : Nat := r.dcAndLos % 2 ^ dcShift
def destinationCount : Nat := r.dcAndLos / 2 ^ dcShift
def dataSize : Nat := r.partialObjSize + r.liveObjSize

def setDestinationCount (count : Nat) : RegionData :=
  { r with dcAndLos := count * 2 ^ dcShift + r.liveObjSize }

def addLiveObj (words : Nat) : RegionData := { r with dcAndLos := r.dcAndLos + words }

/-- What `clear` leaves. -/
def zero : RegionData := ⟨0, 0, 0, 0, 0⟩

@[simp] theorem liveObjSize_setDestinationCount (count : Nat) :
    (r.setDestinationCount count).liveObjSize = r.liveObjSize := by
  simp [liveObjSize, setDestinationCount, Nat.mul_add_mod_self_right]

@[simp] theorem destinationCount_setDestinationCount (count : Nat) :
    (r.setDestinationCount count).destinationCount = count := by
  have hlt : r.dcAndLos % 2 ^ dcShift < 2 ^ dcShift := Nat.mod_lt _ (by decide)
  simp only [destinationCount, setDestinationCount, liveObjSize]
  rw [Nat.mul_comm, Nat.mul_add_div (by decide), Nat.div_eq_of_lt hlt, Nat.add_zero]

end RegionData

/-- `SplitInfo`: the region that is split and where its partial object goes. -/
structure SplitInfo where
  srcRegionIdx : Nat
  partialObjSize : Nat
  destination : Nat
  destinationCount : Nat
  destRegionAddr : Nat
  firstSrcAddr : Nat
  deriving DecidableEq, Repr

namespace SplitInfo

def clear : SplitInfo := ⟨0, 0, 0, 0, 0, 0⟩

def IsSplit (s : SplitInfo) (region : Nat) : Prop := s.srcRegionIdx = region ∧ 0 < s.srcRegionIdx

instance (s : SplitInfo) (region : Nat) : Decidable (s.IsSplit region) :=
  inferInstanceAs (Decidable (_ ∧ _))

/-- The number of regions to which the part of a region goes that has been split off. -/
def countAt (s : SplitInfo) (region : Nat) : Nat :=
  if s.IsSplit region then s.destinationCount else 0

theorem not_isSplit_clear (region : Nat) : ¬clear.IsSplit region := fun h => Nat.lt_irrefl _ h.2

end SplitInfo

/-- The covered region starts at a multiple of the region size. -/
structure ParallelCompactData where
  regionStart : Nat
  aligned : 512 ∣ regionStart
  regionData : Nat → RegionData

namespace ParallelCompactData

variable (d : ParallelCompactData)

def regionOffset (addr : Nat) : Nat := addr % regionSize
def addrToRegionIdx (addr : Nat) : Nat := (addr - d.regionStart) >>> log2RegionSize
def regionToAddr (region : Nat) : Nat := d.regionStart + (region <<< log2RegionSize)
def regionAlignDown (addr : Nat) : Nat := addr - addr % regionSize
def regionAlignUp (addr : Nat) : Nat := regionAlignDown (addr + (regionSize - 1))

/-- The data with one region changed. -/
def modifyRegion (region : Nat) (f : RegionData → RegionData) : ParallelCompactData :=
  { d with regionData := fun i => if i = region then f (d.regionData i) else d.regionData i }

/-- The loop of `add_obj` over the regions that the object spans completely. -/
def addObjMiddle (addr : Nat) : Nat → Nat → ParallelCompactData → ParallelCompactData
  | 0, _, d => d
  | count + 1, region, d => addObjMiddle addr count (region + 1)
      (d.modifyRegion region fun r =>
        { r with partialObjSize := regionSize, partialObjAddr := addr })

def addObj (addr len : Nat) : ParallelCompactData :=
  let objOfs := addr - d.regionStart
  let begRegion := objOfs >>> log2RegionSize
  let endRegion := (objOfs + len - 1) >>> log2RegionSize
  if begRegion = endRegion then d.modifyRegion begRegion (·.addLiveObj len)
  else
    let d := d.modifyRegion begRegion (·.addLiveObj (regionSize - regionOffset addr))
    let d := addObjMiddle addr (endRegion - (begRegion + 1)) (begRegion + 1) d
    d.modifyRegion endRegion fun r =>
      { r with partialObjSize := regionOffset (addr + len - 1) + 1, partialObjAddr := addr }

/-- The objects added, in the order of the list. -/
def addAll : List Extent → ParallelCompactData → ParallelCompactData
  | [], d => d
  | o :: objs, d => addAll objs (d.addObj o.addr o.len)

def calcNewPointer (bitmap : ParMarkBitMap) (addr : Nat) : Option Nat :=
  let r := d.regionData (d.addrToRegionIdx addr)
  let regionAddr := regionAlignDown addr
  if r.dataSize = regionSize then some (r.destination + (addr - regionAddr))
  else do
    let liveToLeft ← bitmap.liveWordsInRange (regionAddr + r.partialObjSize) addr
    return r.destination + (r.partialObjSize + liveToLeft)

end ParallelCompactData

def SplitInfo.record (s : SplitInfo) (d : ParallelCompactData)
    (srcRegionIdx partialObjSize destination : Nat) : SplitInfo :=
  let s := { s with srcRegionIdx, partialObjSize, destination }
  let lastWord := destination + partialObjSize - 1
  let begRegionAddr := ParallelCompactData.regionAlignDown destination
  let endRegionAddr := ParallelCompactData.regionAlignDown lastWord
  if begRegionAddr = endRegionAddr then
    -- one destination region
    if endRegionAddr = destination then
      { s with
        destinationCount := 1
        destRegionAddr := endRegionAddr
        firstSrcAddr := d.regionToAddr srcRegionIdx }
    else { s with destinationCount := 1 }
  else
    { s with
      destinationCount := 2
      destRegionAddr := endRegionAddr
      firstSrcAddr := d.regionToAddr srcRegionIdx + (endRegionAddr - destination) }

namespace ParallelCompactData

/-- The loop that clears the source regions from `idx` on. -/
def clearSourceRegions : Nat → Nat → ParallelCompactData → ParallelCompactData
  | 0, _, d => d
  | count + 1, idx, d =>
    clearSourceRegions count (idx + 1) (d.modifyRegion idx ({ · with sourceRegion := 0 }))

/-- What `summarize` returns and writes through its references and pointers; it writes
`source_next` only at a split. -/
structure Summary where
  done : Bool
  data : ParallelCompactData
  splitInfo : SplitInfo
  sourceNext : Option Nat
  targetNext : Nat

def summarizeSplitSpace (d : ParallelCompactData) (srcRegion : Nat) (splitInfo : SplitInfo)
    (destination targetEnd : Nat) : Summary :=
  let partialObjSize := (d.regionData srcRegion).partialObjSize
  -- an object that starts in an earlier region does not fit: the split is in that region
  let overflow := targetEnd < destination + partialObjSize
  let splitRegion :=
    if overflow then d.addrToRegionIdx (d.regionData srcRegion).partialObjAddr else srcRegion
  let sr := d.regionData splitRegion
  let begIdx := d.addrToRegionIdx (regionAlignUp (sr.destination + sr.partialObjSize))
  let endIdx := d.addrToRegionIdx targetEnd
  let d := if overflow then clearSourceRegions (endIdx - begIdx) begIdx d else d
  let splitDestination := if overflow then sr.destination else destination
  let partialObjSize := if overflow then sr.partialObjSize else partialObjSize
  let splitInfo :=
    if partialObjSize ≠ 0 then splitInfo.record d splitRegion partialObjSize splitDestination
    else splitInfo
  let d :=
    if partialObjSize ≠ 0 then d.modifyRegion splitRegion ({ · with partialObjSize := 0 }) else d
  { done := false
    data := d
    splitInfo := splitInfo
    sourceNext := some (d.regionToAddr splitRegion + partialObjSize)
    targetNext := splitDestination + partialObjSize }

/-- The region as the source of the destination region whose first word it fills. -/
def updateSourceRegion (d : ParallelCompactData) (curRegion destAddr words : Nat) :
    ParallelCompactData :=
  let lastAddr := destAddr + words - 1
  let destRegion1 := d.addrToRegionIdx destAddr
  let destRegion2 := d.addrToRegionIdx lastAddr
  if destRegion1 ≠ destRegion2 then
    d.modifyRegion destRegion2 ({ · with sourceRegion := curRegion })
  else if regionOffset destAddr = 0 then
    d.modifyRegion destRegion1 ({ · with sourceRegion := curRegion })
  else d

/-- The part of the loop for a region with data that fits. -/
def placeRegion (d : ParallelCompactData) (splitInfo : SplitInfo)
    (curRegion destAddr words : Nat) : ParallelCompactData :=
  let isSplit := splitInfo.IsSplit curRegion
  let splitCount := if isSplit then splitInfo.destinationCount else 0
  let d :=
    if isSplit ∧ splitCount = 2 then
      d.modifyRegion (d.addrToRegionIdx splitInfo.destRegionAddr)
        ({ · with sourceRegion := curRegion })
    else d
  let lastAddr := destAddr + words - 1
  let destRegion1 := d.addrToRegionIdx destAddr
  let destRegion2 := d.addrToRegionIdx lastAddr
  -- a region does not count itself as a destination
  let destinationCount := splitCount + (if curRegion = destRegion2 then 0 else 1) +
    (if destRegion1 ≠ destRegion2 then 1 else 0)
  (d.updateSourceRegion curRegion destAddr words).modifyRegion curRegion
    (·.setDestinationCount destinationCount)

/-- The loop of `summarize` over `count` regions from `curRegion` on. -/
def summarizeLoop (splitInfo : SplitInfo) (targetEnd : Nat) :
    Nat → Nat → Nat → ParallelCompactData → Summary
  | 0, _, destAddr, d => ⟨true, d, splitInfo, none, destAddr⟩
  | count + 1, curRegion, destAddr, d =>
    let d := d.modifyRegion curRegion ({ · with destination := destAddr })
    let words := (d.regionData curRegion).dataSize
    if 0 < words then
      if targetEnd < destAddr + words then
        summarizeSplitSpace d curRegion splitInfo destAddr targetEnd
      else
        summarizeLoop splitInfo targetEnd count (curRegion + 1) (destAddr + words)
          (placeRegion d splitInfo curRegion destAddr words)
    else summarizeLoop splitInfo targetEnd count (curRegion + 1) destAddr d

def summarize (d : ParallelCompactData) (splitInfo : SplitInfo)
    (sourceBeg sourceEnd targetBeg targetEnd : Nat) : Summary :=
  let curRegion := d.addrToRegionIdx sourceBeg
  let endRegion := d.addrToRegionIdx (regionAlignUp sourceEnd)
  summarizeLoop splitInfo targetEnd (endRegion - curRegion) curRegion targetBeg d

/-! ## Addresses and regions -/

section Address

variable {d : ParallelCompactData}

theorem regionToAddr_eq (i : Nat) : d.regionToAddr i = d.regionStart + 512 * i := by
  rw [regionToAddr, Nat.shiftLeft_eq, log2RegionSize, Nat.mul_comm]

theorem addrToRegionIdx_eq (a : Nat) : d.addrToRegionIdx a = (a - d.regionStart) / 512 :=
  Nat.shiftRight_eq_div_pow _ _

theorem regionOffset_eq (a : Nat) : regionOffset a = a % 512 := rfl

/-- A region holds the words from its address to that of the next. -/
theorem addrToRegionIdx_eq_iff {a i : Nat} (ha : d.regionStart ≤ a) :
    d.addrToRegionIdx a = i ↔ d.regionToAddr i ≤ a ∧ a < d.regionToAddr (i + 1) := by
  rw [addrToRegionIdx_eq, regionToAddr_eq, regionToAddr_eq]
  omega

theorem regionAlignDown_eq {a : Nat} (ha : d.regionStart ≤ a) :
    regionAlignDown a = d.regionToAddr (d.addrToRegionIdx a) := by
  have := d.aligned
  rw [regionAlignDown, regionToAddr_eq, addrToRegionIdx_eq, show regionSize = 512 from rfl]
  omega

theorem modifyRegion_self (i : Nat) (f : RegionData → RegionData) :
    (d.modifyRegion i f).regionData i = f (d.regionData i) := if_pos rfl

theorem modifyRegion_of_ne {i j : Nat} (f : RegionData → RegionData) (hne : j ≠ i) :
    (d.modifyRegion i f).regionData j = d.regionData j := if_neg hne

@[simp] theorem regionStart_modifyRegion (i : Nat) (f : RegionData → RegionData) :
    (d.modifyRegion i f).regionStart = d.regionStart := rfl

@[simp] theorem regionToAddr_modifyRegion (i : Nat) (f : RegionData → RegionData) (j : Nat) :
    (d.modifyRegion i f).regionToAddr j = d.regionToAddr j := rfl

@[simp] theorem addrToRegionIdx_modifyRegion (i : Nat) (f : RegionData → RegionData) (a : Nat) :
    (d.modifyRegion i f).addrToRegionIdx a = d.addrToRegionIdx a := rfl

end Address

/-! ## What marking leaves in the regions -/

open Extent

/-- The words of a region at `x` that belong to an object from an earlier region. -/
def spill (objs : List Extent) (x : Nat) : Nat :=
  (objs.map fun o => if o.addr < x then o.overlap x (x + 512) else 0).sum

/-- The words of a region at `x` that belong to objects that start in it. -/
def started (objs : List Extent) (x : Nat) : Nat :=
  (objs.map fun o => if x ≤ o.addr then o.overlap x (x + 512) else 0).sum

variable {objs : List Extent} {o : Extent} {x : Nat}

theorem spill_cons : spill (o :: objs) x =
    (if o.addr < x then o.overlap x (x + 512) else 0) + spill objs x := by
  simp [spill]

theorem started_cons : started (o :: objs) x =
    (if x ≤ o.addr then o.overlap x (x + 512) else 0) + started objs x := by
  simp [started]

theorem spill_add_started : spill objs x + started objs x = covered objs x (x + 512) := by
  induction objs with
  | nil => rfl
  | cons o objs ih =>
    rw [spill_cons, started_cons, covered_cons]
    split_ifs <;> omega

/-- No object extends onto `x`. -/
theorem spill_eq_zero (h : ∀ o ∈ objs, o.limit ≤ x ∨ x ≤ o.addr) : spill objs x = 0 := by
  induction objs with
  | nil => rfl
  | cons o objs ih =>
    rw [List.forall_mem_cons] at h
    rw [spill_cons, ih h.2]
    have := h.1
    simp only [overlap]
    split_ifs <;> omega

/-- The object that extends onto `x` is the only one. -/
theorem spill_of_mem (hapart : objs.Pairwise Apart) (ho : o ∈ objs) (hlow : o.addr < x)
    (hhigh : x < o.limit) : spill objs x = min 512 (o.limit - x) := by
  induction objs with
  | nil => simp at ho
  | cons first objs ih =>
    rw [List.pairwise_cons] at hapart
    rw [spill_cons]
    rcases List.mem_cons.mp ho with rfl | ho
    · rw [if_pos hlow, spill_eq_zero fun o' ho' => ?_]
      · simp only [overlap]
        omega
      · have := hapart.1 o' ho'
        simp only [Apart] at this
        omega
    · rw [ih hapart.2 ho]
      have := hapart.1 o ho
      simp only [Apart, overlap] at *
      split_ifs <;> omega

/-- The data is what marking the objects leaves in cleared regions. -/
structure Recorded (d : ParallelCompactData) (objs : List Extent) : Prop where
  partialObjSize : ∀ i, (d.regionData i).partialObjSize = spill objs (d.regionToAddr i)
  dcAndLos : ∀ i, (d.regionData i).dcAndLos = started objs (d.regionToAddr i)
  partialObjAddr : ∀ i, ∀ o ∈ objs, o.addr < d.regionToAddr i → d.regionToAddr i < o.limit →
    (d.regionData i).partialObjAddr = o.addr
  sourceRegion : ∀ i, (d.regionData i).sourceRegion = 0

@[simp] theorem regionStart_addObjMiddle (addr count region : Nat) (d : ParallelCompactData) :
    (addObjMiddle addr count region d).regionStart = d.regionStart := by
  induction count generalizing region d with
  | zero => rfl
  | succ count ih => rw [addObjMiddle, ih, regionStart_modifyRegion]

theorem addObjMiddle_regionData (addr count region i : Nat) (d : ParallelCompactData) :
    (addObjMiddle addr count region d).regionData i =
      if region ≤ i ∧ i < region + count then
        { d.regionData i with partialObjSize := regionSize, partialObjAddr := addr }
      else d.regionData i := by
  induction count generalizing region d with
  | zero => rw [addObjMiddle, if_neg (by omega)]
  | succ count ih =>
    rw [addObjMiddle, ih]
    by_cases hi : i = region
    · subst hi
      rw [if_neg (by omega), if_pos (by omega), modifyRegion_self]
    · rw [modifyRegion_of_ne _ hi]
      split_ifs <;> first | rfl | omega

theorem regionStart_addObj (d : ParallelCompactData) (addr len : Nat) :
    (d.addObj addr len).regionStart = d.regionStart := by
  rw [addObj]
  simp only
  split <;> simp

/-- What an object leaves in a region: its words there, or its part that extends onto it. -/
theorem addObj_regionData (d : ParallelCompactData) (hstart : d.regionStart ≤ o.addr)
    (hlen : 0 < o.len) (i : Nat) :
    (d.addObj o.addr o.len).regionData i =
      if o.addr < d.regionToAddr i ∧ d.regionToAddr i < o.limit then
        { d.regionData i with
          partialObjSize := min 512 (o.limit - d.regionToAddr i)
          partialObjAddr := o.addr }
      else if d.regionToAddr i ≤ o.addr then
        (d.regionData i).addLiveObj (o.overlap (d.regionToAddr i) (d.regionToAddr i + 512))
      else d.regionData i := by
  have haligned := d.aligned
  have hsize : regionSize = 512 := rfl
  rw [addObj]
  simp only [regionOffset, hsize, regionToAddr_eq, limit, overlap,
    Nat.shiftRight_eq_div_pow, show 2 ^ log2RegionSize = 512 from rfl]
  have hzero : ∀ r : RegionData, r.addLiveObj 0 = r := fun r => rfl
  split
  next hone =>
    by_cases hi : i = (o.addr - d.regionStart) / 512
    · rw [hi, modifyRegion_self, if_neg (by omega), if_pos (by omega)]
      congr 1
      omega
    · rw [modifyRegion_of_ne _ hi, if_neg (by omega)]
      split
      next hle =>
        have : min (d.regionStart + 512 * i + 512) (o.addr + o.len) -
            max (d.regionStart + 512 * i) o.addr = 0 := by omega
        rw [this, hzero]
      next => rfl
  next hmany =>
    by_cases hlast : i = (o.addr - d.regionStart + o.len - 1) / 512
    · rw [hlast, modifyRegion_self, addObjMiddle_regionData, if_neg (by omega),
        modifyRegion_of_ne _ (by omega), if_pos (by omega)]
      congr 1
      omega
    · rw [modifyRegion_of_ne _ hlast, addObjMiddle_regionData]
      by_cases hfirst : i = (o.addr - d.regionStart) / 512
      · rw [if_neg (by omega), if_neg (by omega), hfirst, modifyRegion_self, if_pos (by omega)]
        congr 1
        omega
      · rw [modifyRegion_of_ne _ hfirst]
        split
        next hmiddle =>
          have hfull : min 512 (o.addr + o.len - (d.regionStart + 512 * i)) = 512 := by omega
          rw [if_pos (by omega), hsize, hfull]
        next hout =>
          rw [if_neg (by omega)]
          split
          next hle =>
            have : min (d.regionStart + 512 * i + 512) (o.addr + o.len) -
                max (d.regionStart + 512 * i) o.addr = 0 := by omega
            rw [this, hzero]
          next => rfl

theorem Recorded.addObj {d : ParallelCompactData} (hrec : d.Recorded objs)
    (hstart : d.regionStart ≤ o.addr) (hlen : 0 < o.len) (hapart : ∀ o' ∈ objs, o.Apart o') :
    (d.addObj o.addr o.len).Recorded (o :: objs) := by
  have hto : ∀ i, (d.addObj o.addr o.len).regionToAddr i = d.regionToAddr i := by
    intro i
    rw [regionToAddr, regionToAddr, regionStart_addObj]
  refine ⟨fun i => ?_, fun i => ?_, fun i o' ho' hlow hhigh => ?_, fun i => ?_⟩
  · rw [addObj_regionData d hstart hlen, hto, spill_cons]
    split
    next hover =>
      -- no other object extends onto this region
      have hnone : spill objs (d.regionToAddr i) = 0 := by
        refine spill_eq_zero fun o' ho' => ?_
        have := hapart o' ho'
        simp only [Apart] at this
        omega
      rw [if_pos hover.1, hnone]
      simp only [overlap]
      omega
    next hover =>
      have hzero : (if o.addr < d.regionToAddr i then
          o.overlap (d.regionToAddr i) (d.regionToAddr i + 512) else 0) = 0 := by
        simp only [overlap]
        split_ifs <;> omega
      rw [hzero, Nat.zero_add, ← hrec.partialObjSize]
      split_ifs <;> rfl
  · rw [addObj_regionData d hstart hlen, hto, started_cons, ← hrec.dcAndLos]
    split
    next hover => rw [if_neg (by omega), Nat.zero_add]
    next hover =>
      split
      next => exact Nat.add_comm _ _
      next => exact (Nat.zero_add _).symm
  · rw [hto] at hlow hhigh
    rw [addObj_regionData d hstart hlen]
    rcases List.mem_cons.mp ho' with rfl | ho'
    · rw [if_pos ⟨hlow, hhigh⟩]
    · have := hapart o' ho'
      simp only [Apart] at this
      rw [if_neg (by omega), ← hrec.partialObjAddr i o' ho' hlow hhigh]
      split_ifs <;> rfl
  · rw [addObj_regionData d hstart hlen, ← hrec.sourceRegion i]
    split_ifs <;> rfl

/-- Adding disjoint objects, in any order. -/
theorem Recorded.addAll {done : List Extent} {d : ParallelCompactData} (hrec : d.Recorded done)
    (hapart : (objs ++ done).Pairwise Apart)
    (hin : ∀ o ∈ objs, d.regionStart ≤ o.addr ∧ 0 < o.len) :
    (d.addAll objs).Recorded (objs.reverse ++ done) ∧
      (d.addAll objs).regionStart = d.regionStart := by
  induction objs generalizing d done with
  | nil => exact ⟨hrec, rfl⟩
  | cons o objs ih =>
    rw [List.cons_append, List.pairwise_cons] at hapart
    rw [List.forall_mem_cons] at hin
    have hrec' := hrec.addObj hin.1.1 hin.1.2
      fun o' ho' => hapart.1 o' (List.mem_append_right _ ho')
    have hperm : (objs ++ o :: done).Perm (o :: (objs ++ done)) := List.perm_middle
    obtain ⟨hall, hstart⟩ := ih hrec'
      ((hperm.pairwise_iff Apart.symm).mpr (List.pairwise_cons.mpr hapart))
      (fun o' ho' => by
        rw [regionStart_addObj]
        exact hin.2 o' ho')
    rw [List.reverse_cons, List.append_assoc]
    exact ⟨hall, hstart.trans (regionStart_addObj ..)⟩

theorem Recorded.perm {d : ParallelCompactData} {objs' : List Extent} (hrec : d.Recorded objs)
    (h : objs.Perm objs') : d.Recorded objs' where
  partialObjSize i := (hrec.partialObjSize i).trans (h.map _).sum_eq
  dcAndLos i := (hrec.dcAndLos i).trans (h.map _).sum_eq
  partialObjAddr i o ho := hrec.partialObjAddr i o (h.mem_iff.mpr ho)
  sourceRegion := hrec.sourceRegion

/-- The data after `clear`. -/
def cleared (d : ParallelCompactData) : ParallelCompactData :=
  { d with regionData := fun _ => .zero }

theorem recorded_cleared (d : ParallelCompactData) : d.cleared.Recorded [] :=
  ⟨fun _ => rfl, fun _ => rfl, fun _ o ho => by simp at ho, fun _ => rfl⟩

theorem started_le (hapart : objs.Pairwise Apart) : started objs x ≤ 512 := by
  have := @spill_add_started objs x
  have := covered_le hapart (by omega : x ≤ x + 512)
  omega

theorem Recorded.liveObjSize {d : ParallelCompactData} (hrec : d.Recorded objs)
    (hapart : objs.Pairwise Apart) (i : Nat) :
    (d.regionData i).liveObjSize = started objs (d.regionToAddr i) := by
  have := @started_le objs (d.regionToAddr i) hapart
  rw [RegionData.liveObjSize, hrec.dcAndLos, dcShift, Nat.mod_eq_of_lt (by omega)]

/-- The data of a region are the covered words in it. -/
theorem Recorded.dataSize {d : ParallelCompactData} (hrec : d.Recorded objs)
    (hapart : objs.Pairwise Apart) (i : Nat) :
    rank objs (d.regionToAddr i) + (d.regionData i).dataSize =
      rank objs (d.regionToAddr (i + 1)) := by
  have hnext : d.regionToAddr (i + 1) = d.regionToAddr i + 512 := by
    rw [regionToAddr_eq, regionToAddr_eq]
    omega
  rw [RegionData.dataSize, hrec.partialObjSize, hrec.liveObjSize hapart, spill_add_started, hnext,
    rank_add_covered (by omega)]

end ParallelCompactData

/-! ## The end of a partial object

`partial_obj_end` adds up the partial sizes of the regions that an object crosses. The
walk stops before the last region, whose partial size it never reads.
-/

open Extent

namespace ParallelCompactData

variable (d : ParallelCompactData)

/-- The `do` loop of `partial_obj_end` over at most `count` regions from `cur` on. -/
def partialObjEndLoop : Nat → Nat → Nat → Nat
  | 0, _, result => result
  | count + 1, cur, result =>
    let size := (d.regionData cur).partialObjSize
    if size = regionSize then partialObjEndLoop count (cur + 1) (result + size)
    else result + size

def partialObjEnd (regionCount regionIdx : Nat) : Nat :=
  let endCp := regionCount - 1
  let result := d.regionToAddr regionIdx
  if regionIdx < endCp then d.partialObjEndLoop (endCp - regionIdx) regionIdx result else result

/-- `addr` is the end of the object that extends onto the start of the region, or the
address of the region. -/
structure EndsPartial (objs : List Extent) (region addr : Nat) : Prop where
  onto : ∀ o ∈ objs, o.addr < d.regionToAddr region → d.regionToAddr region < o.limit →
    addr = o.limit
  apart : (∀ o ∈ objs, ¬(o.addr < d.regionToAddr region ∧ d.regionToAddr region < o.limit)) →
    addr = d.regionToAddr region

variable {d} {objs : List Extent} {o : Extent}

theorem regionToAddr_succ (i : Nat) : d.regionToAddr (i + 1) = d.regionToAddr i + 512 := by
  rw [regionToAddr_eq, regionToAddr_eq]
  omega

/-- Along an object the loop reaches the end of the object or the region where it stops. -/
theorem partialObjEndLoop_of_mem (hrec : d.Recorded objs) (hapart : objs.Pairwise Apart)
    (ho : o ∈ objs) (count region : Nat) (hlow : o.addr < d.regionToAddr region)
    (hhigh : d.regionToAddr region ≤ o.limit) :
    d.partialObjEndLoop count region (d.regionToAddr region) =
      min o.limit (d.regionToAddr (region + count)) := by
  induction count generalizing region with
  | zero => exact (Nat.min_eq_right hhigh).symm
  | succ count ih =>
    have hnext := @regionToAddr_succ d region
    have hmono : d.regionToAddr (region + 1) ≤ d.regionToAddr (region + (count + 1)) := by
      rw [regionToAddr_eq, regionToAddr_eq]
      omega
    rw [partialObjEndLoop, hrec.partialObjSize, show regionSize = 512 from rfl]
    rcases Nat.lt_or_eq_of_le hhigh with hinside | hends
    · rw [spill_of_mem hapart ho hlow hinside]
      split
      next hfull =>
        rw [hfull, ← hnext, ih (region + 1) (by omega) (by omega), Nat.add_right_comm,
          Nat.add_assoc]
      next hpart => omega
    · -- no object extends onto a region at the end of this one
      have hnone : ∀ p ∈ objs,
          p.limit ≤ d.regionToAddr region ∨ d.regionToAddr region ≤ p.addr := by
        intro p hp
        by_cases heq : p = o
        · exact Or.inl (heq ▸ hends.ge)
        · have := apart_of_mem hapart hp ho heq
          simp only [Apart] at this
          omega
      rw [spill_eq_zero hnone]
      rw [if_neg (by decide)]
      omega

/-- Where nothing extends onto the region, the loop adds nothing. -/
theorem partialObjEnd_of_apart (hrec : d.Recorded objs) {regionCount region : Nat}
    (hnone : ∀ o ∈ objs, ¬(o.addr < d.regionToAddr region ∧ d.regionToAddr region < o.limit)) :
    d.partialObjEnd regionCount region = d.regionToAddr region := by
  have hspill : spill objs (d.regionToAddr region) = 0 := by
    refine spill_eq_zero fun o ho => ?_
    have := hnone o ho
    omega
  rw [partialObjEnd]
  split
  next hlt =>
    obtain ⟨count, hcount⟩ := Nat.exists_eq_add_of_lt hlt
    rw [show regionCount - 1 - region = count + 1 by omega, partialObjEndLoop,
      hrec.partialObjSize, hspill]
    rw [if_neg (by decide), Nat.add_zero]
  next => rfl

theorem partialObjEnd_of_mem (hrec : d.Recorded objs) (hapart : objs.Pairwise Apart)
    (ho : o ∈ objs) {regionCount region : Nat} (hregion : region < regionCount)
    (hlow : o.addr < d.regionToAddr region) (hhigh : d.regionToAddr region < o.limit) :
    d.partialObjEnd regionCount region = min o.limit (d.regionToAddr (regionCount - 1)) := by
  rw [partialObjEnd]
  split
  next hlt =>
    rw [partialObjEndLoop_of_mem hrec hapart ho _ region hlow hhigh.le,
      Nat.add_sub_cancel' hlt.le]
  next hge =>
    have hlast : regionCount - 1 = region := by omega
    rw [hlast, Nat.min_eq_right hhigh.le]

theorem recorded_addAll (d : ParallelCompactData) (hapart : objs.Pairwise Apart)
    (hin : ∀ o ∈ objs, d.regionStart ≤ o.addr ∧ 0 < o.len) :
    (d.cleared.addAll objs).Recorded objs ∧
      (d.cleared.addAll objs).regionStart = d.regionStart := by
  obtain ⟨hrec, hstart⟩ := (recorded_cleared d).addAll (by rwa [List.append_nil]) hin
  rw [List.append_nil] at hrec
  exact ⟨hrec.perm objs.reverse_perm, hstart⟩

/-- The result is exact unless an object from before the region reaches beyond the start of
the last region. -/
theorem endsPartial_partialObjEnd_iff (d : ParallelCompactData) (objs : List Extent)
    (hapart : objs.Pairwise Apart) (regionCount region : Nat) (hregion : region < regionCount)
    (hin : ∀ o ∈ objs, d.regionStart ≤ o.addr ∧ 0 < o.len ∧ o.limit ≤ d.regionToAddr regionCount) :
    (d.cleared.addAll objs).EndsPartial objs region
        ((d.cleared.addAll objs).partialObjEnd regionCount region) ↔
      ∀ o ∈ objs, o.addr < d.regionToAddr region → o.limit ≤ d.regionToAddr (regionCount - 1) := by
  obtain ⟨hrec, hstart⟩ := recorded_addAll d hapart fun o ho => ⟨(hin o ho).1, (hin o ho).2.1⟩
  generalize d.cleared.addAll objs = marked at hrec hstart ⊢
  have hto : ∀ i, d.regionToAddr i = marked.regionToAddr i := fun i => by
    rw [regionToAddr, regionToAddr, hstart]
  simp only [hto]
  have hlast : marked.regionToAddr region ≤ marked.regionToAddr (regionCount - 1) := by
    rw [regionToAddr_eq, regionToAddr_eq]
    omega
  constructor
  · intro hends o ho hlow
    by_contra hbeyond
    have hmin := hends.onto o ho hlow (by omega)
    rw [partialObjEnd_of_mem hrec hapart ho hregion hlow (by omega)] at hmin
    omega
  · intro hreach
    refine ⟨fun o ho hlow hhigh => ?_, partialObjEnd_of_apart hrec⟩
    rw [partialObjEnd_of_mem hrec hapart ho hregion hlow hhigh]
    exact Nat.min_eq_left (hreach o ho hlow)

/-- Two regions from address 0, and an object over the last hundred words of the first and
the first hundred of the second. -/
theorem partialObjEnd_last_region :
    let objs : List Extent := [⟨412, 200⟩]
    let d : ParallelCompactData := ⟨0, ⟨0, rfl⟩, fun _ => .zero⟩
    ¬(d.cleared.addAll objs).EndsPartial objs 1 ((d.cleared.addAll objs).partialObjEnd 2 1) := by
  intro objs d hends
  have := hends.onto ⟨412, 200⟩ List.mem_cons_self (by decide) (by decide)
  exact absurd this (by decide)

theorem endsPartial_three_regions :
    let objs : List Extent := [⟨412, 200⟩]
    let d : ParallelCompactData := ⟨0, ⟨0, rfl⟩, fun _ => .zero⟩
    (d.cleared.addAll objs).EndsPartial objs 1 ((d.cleared.addAll objs).partialObjEnd 3 1) := by
  intro objs d
  refine (endsPartial_partialObjEnd_iff d objs (List.pairwise_singleton _ _) 3 1 (by decide)
    ?_).mpr ?_
  · decide
  · decide

end ParallelCompactData

end HotSpot
