import HotSpot.ParallelScavenge.Summarize
import Mathlib

/-! # Compaction slides

A space whose live objects have been marked, summarized into a target that has room for
them. The new locations lie one behind the other in the order of the objects.
-/

namespace HotSpot

open Extent

/-- A space from `beg` to its top `end_` with its live objects in the order of their
addresses. -/
structure SourceSpace where
  beg : Nat
  end_ : Nat
  live : List Extent
  aligned : 512 ∣ beg
  sorted : live.Pairwise fun o o' => o.limit ≤ o'.addr
  pos : ∀ o ∈ live, 0 < o.len
  inside : ∀ o ∈ live, beg ≤ o.addr ∧ o.limit ≤ end_

namespace SourceSpace

variable (space : SourceSpace)

/-- The number of live words. -/
def liveWords : Nat := (space.live.map len).sum

theorem apart : space.live.Pairwise Apart := pairwise_apart_of_sorted space.sorted

theorem rank_beg : rank space.live space.beg = 0 :=
  covered_eq_zero fun o ho => Or.inr (space.inside o ho).1

theorem rank_of_end_le {w : Nat} (hw : space.end_ ≤ w) : rank space.live w = space.liveWords :=
  covered_of_limit_le fun o ho => (space.inside o ho).2.trans hw

/-- The space lies in the heap of `size` words from `start` on. -/
def InHeap (start size : Nat) : Prop := start ≤ space.beg ∧ space.end_ ≤ start + size

end SourceSpace

namespace ParallelCompactData

/-- The data and the bitmap after the objects have been marked in this order. -/
def marked (d : ParallelCompactData) (order : List Extent) : ParallelCompactData :=
  d.cleared.addAll order

def markedBits (d : ParallelCompactData) (size : Nat) (order : List Extent) : ParMarkBitMap :=
  (ParMarkBitMap.unmarked d.regionStart size).markAll order

section Marked

variable {d : ParallelCompactData} {space : SourceSpace} {order : List Extent} {size : Nat}
  (horder : order.Perm space.live) (hheap : space.InHeap d.regionStart size)
include horder hheap

theorem recorded_marked :
    (d.marked order).Recorded space.live ∧ (d.marked order).regionStart = d.regionStart := by
  have hapart : order.Pairwise Apart := (horder.pairwise_iff Apart.symm).mpr space.apart
  obtain ⟨hrec, hstart⟩ := @Recorded.addAll order [] d.cleared d.recorded_cleared
    (by rwa [List.append_nil]) fun o ho => by
      have hmem := horder.mem_iff.mp ho
      exact ⟨hheap.1.trans (space.inside o hmem).1, space.pos o hmem⟩
  rw [List.append_nil] at hrec
  exact ⟨hrec.perm (order.reverse_perm.trans horder), hstart⟩

theorem marks_markedBits :
    (d.markedBits size order).Marks size space.live ∧
      (d.markedBits size order).regionStart = d.regionStart ∧
      ∀ o ∈ space.live, (d.markedBits size order).InHeap size o := by
  have hapart : order.Pairwise Apart := (horder.pairwise_iff Apart.symm).mpr space.apart
  have hin : ∀ o ∈ space.live, (ParMarkBitMap.unmarked d.regionStart size).InHeap size o :=
    fun o ho => ⟨hheap.1.trans (space.inside o ho).1, space.pos o ho,
      (space.inside o ho).2.trans hheap.2⟩
  obtain ⟨hmarks, hstart⟩ := @ParMarkBitMap.Marks.markAll
    (ParMarkBitMap.unmarked d.regionStart size) size order []
    (ParMarkBitMap.marks_unmarked _ _) (by rwa [List.append_nil])
    (fun o ho => hin o (horder.mem_iff.mp (by simpa using ho)))
  rw [List.append_nil] at hmarks
  exact ⟨hmarks.perm (order.reverse_perm.trans horder), hstart, fun o ho => (hin o ho).congr hstart⟩

end Marked

/-- The live words in front of a region. -/
def liveBefore (d : ParallelCompactData) (objs : List Extent) (i : Nat) : Nat :=
  rank objs (d.regionToAddr i)

theorem monotone_liveBefore (d : ParallelCompactData) (objs : List Extent) :
    Monotone (d.liveBefore objs) := by
  intro i j hij
  refine rank_mono ?_
  rw [regionToAddr_eq, regionToAddr_eq]
  omega

/-- The regions that `summarize` walks over begin and end with the space. -/
theorem regions_of_space (d : ParallelCompactData) (space : SourceSpace)
    (hbeg : d.regionStart ≤ space.beg) :
    d.regionToAddr (d.addrToRegionIdx space.beg) = space.beg ∧
      space.end_ ≤ d.regionToAddr (d.addrToRegionIdx (regionAlignUp space.end_)) := by
  have haligned := d.aligned
  have hspace := space.aligned
  rw [regionToAddr_eq, regionToAddr_eq, addrToRegionIdx_eq, addrToRegionIdx_eq, regionAlignUp,
    regionAlignDown, show regionSize = 512 from rfl]
  constructor <;> omega

theorem liveBefore_endRegion (d : ParallelCompactData) (space : SourceSpace)
    (hbeg : d.regionStart ≤ space.beg) :
    d.liveBefore space.live (d.addrToRegionIdx space.beg +
      (d.addrToRegionIdx (regionAlignUp space.end_) - d.addrToRegionIdx space.beg)) =
        space.liveWords := by
  refine space.rank_of_end_le ?_
  obtain ⟨-, hend⟩ := d.regions_of_space space hbeg
  rw [regionToAddr_eq] at hend ⊢
  omega

/-- The objects of a space that fits into the target each go to the target plus the sizes of the
live objects in front of it. -/
theorem summarize_of_room (d : ParallelCompactData) (size : Nat) (space : SourceSpace)
    (order : List Extent) (horder : order.Perm space.live)
    (hheap : space.InHeap d.regionStart size) (targetBeg targetEnd : Nat)
    (htarget : d.regionStart ≤ targetBeg) (hroom : targetBeg + space.liveWords ≤ targetEnd) :
    let summary := (d.marked order).summarize .clear space.beg space.end_ targetBeg targetEnd
    summary.done = true ∧ summary.targetNext = targetBeg + space.liveWords ∧
      ∀ i (hi : i < space.live.length),
        summary.data.calcNewPointer (d.markedBits size order) space.live[i].addr =
          some (targetBeg + ((space.live.take i).map len).sum) := by
  obtain ⟨hrec, hstart⟩ := recorded_marked horder hheap
  obtain ⟨hmarks, hbits, hin⟩ := marks_markedBits horder hheap
  generalize d.marked order = data at hrec hstart ⊢
  generalize d.markedBits size order = bits at hmarks hbits hin ⊢
  have hbeg : data.regionStart ≤ space.beg := hstart ▸ hheap.1
  have hfirst : data.liveBefore space.live (data.addrToRegionIdx space.beg) = 0 := by
    rw [liveBefore, (data.regions_of_space space hbeg).1, space.rank_beg]
  have hlast := data.liveBefore_endRegion space hbeg
  -- all the regions fit
  have hsize : ∀ i, (data.regionData i).dataSize ≤ 512 := by
    intro i
    rw [RegionData.dataSize, hrec.partialObjSize, hrec.liveObjSize space.apart, spill_add_started]
    have := covered_le space.apart (by omega : data.regionToAddr i ≤ data.regionToAddr i + 512)
    omega
  obtain ⟨data', hplaced, hloop⟩ := @summarizeLoop_placed .clear data (data.liveBefore space.live)
    (data.addrToRegionIdx space.beg)
    (data.addrToRegionIdx (regionAlignUp space.end_) - data.addrToRegionIdx space.beg) targetBeg
    targetEnd 0 (data.monotone_liveBefore _) (fun i _ _ => SplitInfo.not_isSplit_clear i)
    (fun i _ _ => hrec.dataSize space.apart i) (fun i _ _ => hsize i) (by omega)
    (by rw [hlast, hfirst]; omega)
  rw [hlast, hfirst, Nat.sub_zero, Nat.add_zero] at hloop
  simp only [summarize, hloop, summarizeLoop, true_and]
  intro i hi
  have hmem := List.getElem_mem hi
  have hobj := space.inside _ hmem
  have hpos := space.pos _ hmem
  have hspan := data.regions_of_space space hbeg
  have haddr : data.regionStart ≤ space.live[i].addr := hbeg.trans hobj.1
  obtain ⟨hlow, hhigh⟩ := (addrToRegionIdx_eq_iff haddr).mp rfl
  have hregion : data.addrToRegionIdx space.beg ≤ data.addrToRegionIdx space.live[i].addr ∧
      data.addrToRegionIdx space.live[i].addr < data.addrToRegionIdx space.beg +
        (data.addrToRegionIdx (regionAlignUp space.end_) - data.addrToRegionIdx space.beg) := by
    simp only [regionToAddr_eq, limit] at *
    omega
  rw [calcNewPointer_eq hmarks space.apart hin (by rw [hbits, hplaced.start, hstart]) hmem
    (i := data.addrToRegionIdx space.live[i].addr) (hplaced.addrToRegionIdx _)
    (by rw [hplaced.liveObjSize, hplaced.regionToAddr, hrec.liveObjSize space.apart])
    (Or.inl (by rw [hplaced.partialObjSize, hplaced.regionToAddr, hrec.partialObjSize])),
    hplaced.destination, if_pos hregion, hplaced.partialObjSize, hplaced.regionToAddr,
    hrec.partialObjSize, Nat.sub_self, Nat.add_zero, hfirst, rank_getElem space.sorted]
  have hbefore := @rank_mono space.live _ _ hlow
  rw [rank_getElem space.sorted] at hbefore
  simp only [liveBefore]
  congr 1
  omega

theorem sum_take_succ {objs : List Extent} {i : Nat} (hi : i < objs.length) :
    ((objs.take (i + 1)).map len).sum = ((objs.take i).map len).sum + objs[i].len := by
  have hsum := List.sum_take_succ (objs.map len) i (by simpa using hi)
  simpa only [List.map_take, List.getElem_map] using hsum

theorem sum_take_mono (objs : List Extent) {i j : Nat} (hij : i ≤ j) :
    ((objs.take i).map len).sum ≤ ((objs.take j).map len).sum := by
  simpa only [List.map_take] using List.monotone_sum_take (objs.map len) hij

/-- Compaction slides: in a target with room the live objects lie one behind the other, in the
order of their addresses. -/
theorem summarize_slides (d : ParallelCompactData) (size : Nat) (space : SourceSpace)
    (order : List Extent) (horder : order.Perm space.live)
    (hheap : space.InHeap d.regionStart size) (targetBeg targetEnd : Nat)
    (htarget : d.regionStart ≤ targetBeg) (hroom : targetBeg + space.liveWords ≤ targetEnd) :
    let summary := (d.marked order).summarize .clear space.beg space.end_ targetBeg targetEnd
    let newPointer := summary.data.calcNewPointer (d.markedBits size order)
    summary.done = true ∧ summary.targetNext = targetBeg + space.liveWords ∧
      (∀ i (hi : i < space.live.length), newPointer space.live[i].addr =
        some (targetBeg + ((space.live.take i).map len).sum)) ∧
      ∀ i j (hij : i < j) (hj : j < space.live.length), ∃ a b,
        newPointer space.live[i].addr = some a ∧ newPointer space.live[j].addr = some b ∧
          a + space.live[i].len ≤ b ∧ (j = i + 1 → b = a + space.live[i].len) := by
  obtain ⟨hdone, hnext, hnew⟩ :=
    summarize_of_room d size space order horder hheap targetBeg targetEnd htarget hroom
  refine ⟨hdone, hnext, hnew, fun i j hij hj => ⟨_, _, hnew i (hij.trans hj), hnew j hj, ?_, ?_⟩⟩
  · have hsucc := sum_take_succ (hij.trans hj)
    have hmono := sum_take_mono space.live (by omega : i + 1 ≤ j)
    omega
  · rintro rfl
    rw [sum_take_succ (hij.trans hj), Nat.add_assoc]

/-- A heap of four regions, whose last three are a space with an object in one region, one that
crosses a boundary and one that spans a region. -/
def fourRegions : ParallelCompactData := ⟨0, Dvd.intro 0 rfl, fun _ => .zero⟩

def threeObjects : SourceSpace where
  beg := 512
  end_ := 2000
  live := [⟨520, 3⟩, ⟨1000, 100⟩, ⟨1200, 600⟩]
  aligned := by decide
  sorted := by decide
  pos := by decide
  inside := by decide

theorem summarize_slides_threeObjects :
    let summary := (fourRegions.marked [⟨1200, 600⟩, ⟨520, 3⟩, ⟨1000, 100⟩]).summarize .clear
      512 2000 100 1024
    let newPointer := summary.data.calcNewPointer
      (fourRegions.markedBits 2048 [⟨1200, 600⟩, ⟨520, 3⟩, ⟨1000, 100⟩])
    summary.done = true ∧ newPointer 520 = some 100 ∧ newPointer 1000 = some 103 ∧
      newPointer 1200 = some 203 := by
  obtain ⟨hdone, -, hnew, -⟩ := summarize_slides fourRegions 2048 threeObjects
    [⟨1200, 600⟩, ⟨520, 3⟩, ⟨1000, 100⟩] (by decide) ⟨by decide, by decide⟩ 100 1024 (by decide)
    (by decide)
  exact ⟨hdone, hnew 0 (by decide), hnew 1 (by decide), hnew 2 (by decide)⟩

end ParallelCompactData

end HotSpot
