import HotSpot.Lib.Extents
import HotSpot.Utilities.BitMapSearch

/-! # The mark bitmap

`ParMarkBitMap` of `parMarkBitMap.hpp`: two bitmaps with a bit for each word of the
heap, one for the first words of the live objects and one for their last words.
-/

namespace HotSpot

structure ParMarkBitMap where
  regionStart : Nat
  begBits : BitMap
  endBits : BitMap

namespace ParMarkBitMap

open Extent

/-- `LogMinObjAlignment`, where a heap word has 64 bits. -/
def objGranularityShift : Nat := 0

def bitsToWords (bits : Nat) : Nat := bits <<< objGranularityShift
def wordsToBits (words : Nat) : Nat := words >>> objGranularityShift

variable (m : ParMarkBitMap)

def addrToBit (addr : Nat) : Nat := wordsToBits (addr - m.regionStart)

def markObj (addr size : Nat) : Bool × ParMarkBitMap :=
  let begSet := m.begBits.parSetBit (m.addrToBit addr)
  if begSet.1 then
    (true, { m with
      begBits := begSet.2
      endBits := (m.endBits.parSetBit (m.addrToBit (addr + size - 1))).2 })
  else (false, { m with begBits := begSet.2 })

def findObjBeg (beg end_ : Nat) : Nat := m.begBits.getNextOneOffsetAlignedRight beg end_
def findObjEnd (beg end_ : Nat) : Nat := m.endBits.getNextOneOffsetAlignedRight beg end_

/-- The loop of `live_words_in_range` for a range that ends with a live object. -/
def liveWordsLoop (endBit rangeEnd : Nat) : Nat → Nat → Nat → Option Nat
  | 0, _, _ => none
  | fuel + 1, begBit, liveBits =>
    if begBit < endBit then
      let tmpEnd := m.findObjEnd begBit rangeEnd
      liveWordsLoop endBit rangeEnd fuel (m.findObjBeg (tmpEnd + 1) rangeEnd)
        (liveBits + (tmpEnd - begBit + 1))
    else some (bitsToWords liveBits)

/-- `live_words_in_range(HeapWord*, oop)`. Every round raises the bit it starts at, so that
there are fewer rounds than bits. -/
def liveWordsInRange (begAddr endObj : Nat) : Option Nat :=
  let endBit := m.addrToBit endObj
  let rangeEnd := BitMap.wordAlignUp endBit
  m.liveWordsLoop endBit rangeEnd (endBit + 1) (m.findObjBeg (m.addrToBit begAddr) rangeEnd) 0

/-- The objects marked, in the order of the list. -/
def markAll : List Extent → ParMarkBitMap → ParMarkBitMap
  | [], m => m
  | o :: objs, m => markAll objs (m.markObj o.addr o.len).2

/-- The bitmap for `size` words from `regionStart` on, with no bit set. -/
def unmarked (regionStart size : Nat) : ParMarkBitMap :=
  let bits : BitMap := ⟨Array.replicate (BitMap.wordIndex (size + BitMap.bitsPerWord - 1)) 0, size⟩
  ⟨regionStart, bits, bits⟩

@[simp] theorem addrToBit_eq (addr : Nat) : m.addrToBit addr = addr - m.regionStart := rfl

/-- The bits are those of the objects. -/
structure Marks (m : ParMarkBitMap) (size : Nat) (objs : List Extent) : Prop where
  begSize : m.begBits.size = size
  endSize : m.endBits.size = size
  begWf : m.begBits.WellFormed
  endWf : m.endBits.WellFormed
  beg : ∀ i, m.begBits.bit i = true ↔ ∃ o ∈ objs, o.addr - m.regionStart = i
  ends : ∀ i, m.endBits.bit i = true ↔ ∃ o ∈ objs, o.limit - 1 - m.regionStart = i

variable {m} {size : Nat} {objs : List Extent} {o : Extent}

/-- The object lies in the part of the heap that the bitmap is for. -/
def InHeap (m : ParMarkBitMap) (size : Nat) (o : Extent) : Prop :=
  m.regionStart ≤ o.addr ∧ 0 < o.len ∧ o.limit ≤ m.regionStart + size

theorem parSetBit_spec {b : BitMap} {bit : Nat} (hlt : bit / 64 < b.map.size) :
    BitMap.Puts true b bit (bit + 1) (b.parSetBit bit).2 ∧
      ((b.parSetBit bit).1 = true ↔ b.bit bit = false) := by
  have hset := BitMap.setBit_puts hlt
  rw [BitMap.setBit, BitMap.wordIndex_eq] at hset
  have hbits : (b.word (bit / 64) ||| BitMap.bitMask bit).getLsbD (bit % 64) = true := by
    rw [BitVec.getLsbD_or, BitMap.getLsbD_bitMask, decide_eq_true rfl, Bool.or_true]
  rw [BitMap.parSetBit]
  simp only [BitMap.wordIndex_eq]
  split
  next hsame =>
    rw [hsame] at hbits
    refine ⟨⟨rfl, rfl, fun i => ?_⟩, by simp [BitMap.bit, hbits]⟩
    split
    next hi =>
      obtain rfl : i = bit := by omega
      exact hbits
    next => rfl
  next hnew =>
    refine ⟨hset, ?_⟩
    simp only [true_iff]
    by_contra hbit
    apply hnew
    apply BitVec.eq_of_getLsbD_eq
    intro j _
    rw [BitVec.getLsbD_or, BitMap.getLsbD_bitMask]
    by_cases hj : j = bit % 64
    · have hone : b.bit bit = true := by simpa using hbit
      rw [BitMap.bit, ← hj] at hone
      rw [hone, Bool.true_or]
    · rw [decide_eq_false hj, Bool.or_false]

theorem Marks.markObj (hmarks : m.Marks size objs) (ho : InHeap m size o)
    (hapart : ∀ o' ∈ objs, o.Apart o') (hpos : ∀ o' ∈ objs, InHeap m size o') :
    (m.markObj o.addr o.len).2.Marks size (o :: objs) ∧
      (m.markObj o.addr o.len).2.regionStart = m.regionStart := by
  obtain ⟨hstart, hlen, hlimit⟩ := ho
  simp only [limit] at hlimit
  have hbegSize := hmarks.begSize
  have hendSize := hmarks.endSize
  have hbegLt := hmarks.begWf.word_lt (by omega : o.addr - m.regionStart < m.begBits.size)
  have hendLt :=
    hmarks.endWf.word_lt (by omega : o.addr + o.len - 1 - m.regionStart < m.endBits.size)
  obtain ⟨hbegPuts, hbegNew⟩ := parSetBit_spec hbegLt
  obtain ⟨hendPuts, -⟩ := parSetBit_spec hendLt
  have hfresh : (m.begBits.parSetBit (o.addr - m.regionStart)).1 = true := by
    rw [hbegNew, ← Bool.not_eq_true, hmarks.beg]
    rintro ⟨o', ho', heq⟩
    have hbounds := hpos o' ho'
    have := hapart o' ho'
    simp only [InHeap, Apart, limit] at *
    omega
  have hresult : m.markObj o.addr o.len = (true, { m with
      begBits := (m.begBits.parSetBit (o.addr - m.regionStart)).2
      endBits := (m.endBits.parSetBit (o.addr + o.len - 1 - m.regionStart)).2 }) :=
    if_pos hfresh
  rw [hresult]
  refine ⟨⟨?_, ?_, ?_, ?_, fun i => ?_, fun i => ?_⟩, rfl⟩
  · exact hbegPuts.size.trans hmarks.begSize
  · exact hendPuts.size.trans hmarks.endSize
  · exact hbegPuts.wellFormed hmarks.begWf (by omega)
  · exact hendPuts.wellFormed hmarks.endWf (by omega)
  · simp only [hbegPuts.bit, List.exists_mem_cons_iff]
    split
    next hi =>
      obtain rfl : i = o.addr - m.regionStart := by omega
      simp
    next hi =>
      rw [hmarks.beg]
      refine ⟨Or.inr, fun h => h.resolve_left ?_⟩
      omega
  · simp only [hendPuts.bit, List.exists_mem_cons_iff, limit]
    split
    next hi =>
      obtain rfl : i = o.addr + o.len - 1 - m.regionStart := by omega
      simp
    next hi =>
      rw [hmarks.ends]
      refine ⟨Or.inr, fun h => h.resolve_left ?_⟩
      omega

theorem InHeap.congr {m' : ParMarkBitMap} (hstart : m'.regionStart = m.regionStart)
    (ho : InHeap m size o) : InHeap m' size o := by
  simpa only [InHeap, hstart] using ho

theorem marks_unmarked (regionStart size : Nat) :
    (unmarked regionStart size).Marks size [] := by
  have hbit : ∀ i, (unmarked regionStart size).begBits.bit i = false := by
    intro i
    simp only [unmarked, BitMap.bit, BitMap.word]
    simp [Array.getD]
  have hwf : (unmarked regionStart size).begBits.WellFormed :=
    ⟨by simp [unmarked, BitMap.sizeInWords], fun i _ => hbit i⟩
  refine ⟨rfl, rfl, hwf, hwf, fun i => ?_, fun i => ?_⟩
  · simp [hbit i]
  · simp [show (unmarked regionStart size).endBits.bit i = false from hbit i]

theorem Marks.perm {objs' : List Extent} (hmarks : m.Marks size objs) (h : objs.Perm objs') :
    m.Marks size objs' where
  begSize := hmarks.begSize
  endSize := hmarks.endSize
  begWf := hmarks.begWf
  endWf := hmarks.endWf
  beg i := by simpa only [h.mem_iff] using hmarks.beg i
  ends i := by simpa only [h.mem_iff] using hmarks.ends i

/-- Marking disjoint objects, in any order. -/
theorem Marks.markAll {done : List Extent} (hmarks : m.Marks size done)
    (hapart : (objs ++ done).Pairwise Apart) (hin : ∀ o ∈ objs ++ done, InHeap m size o) :
    (m.markAll objs).Marks size (objs.reverse ++ done) ∧
      (m.markAll objs).regionStart = m.regionStart := by
  induction objs generalizing m done with
  | nil => exact ⟨hmarks, rfl⟩
  | cons o objs ih =>
    rw [List.cons_append, List.pairwise_cons] at hapart
    rw [List.cons_append, List.forall_mem_cons] at hin
    obtain ⟨hmarked, hstart⟩ := hmarks.markObj hin.1
      (fun o' ho' => hapart.1 o' (List.mem_append_right _ ho'))
      (fun o' ho' => hin.2 o' (List.mem_append_right _ ho'))
    have hperm : (objs ++ o :: done).Perm (o :: (objs ++ done)) := List.perm_middle
    obtain ⟨hall, hstart'⟩ := ih hmarked
      ((hperm.pairwise_iff Apart.symm).mpr (List.pairwise_cons.mpr hapart))
      (fun o' ho' => by
        rcases List.mem_cons.mp (hperm.mem_iff.mp ho') with rfl | hrest
        · exact hin.1.congr hstart
        · exact (hin.2 o' hrest).congr hstart)
    rw [List.reverse_cons, List.append_assoc]
    exact ⟨hall, hstart'.trans hstart⟩

/-! ## Counting the live words in front of an object -/

section LiveWords

variable (hmarks : m.Marks size objs) (hapart : objs.Pairwise Apart)
  (hin : ∀ o ∈ objs, InHeap m size o) (ho : o ∈ objs)
include hmarks hapart hin ho

/-- The search for the end bit of an object. -/
theorem findObjEnd_eq {rangeEnd : Nat} (hrange : o.limit ≤ m.regionStart + rangeEnd)
    (haligned : rangeEnd % 64 = 0) :
    m.findObjEnd (o.addr - m.regionStart) rangeEnd = o.limit - 1 - m.regionStart := by
  have hbounds := hin o ho
  simp only [InHeap, limit] at hbounds hrange ⊢
  rw [findObjEnd, BitMap.getNextOneOffsetAlignedRight_eq _ (by omega) haligned]
  symm
  apply BitMap.eq_nextWhere (by omega) (by omega)
  · exact fun _ => (hmarks.ends _).mpr ⟨o, ho, rfl⟩
  · intro j hlow hhigh
    rw [← Bool.not_eq_true, hmarks.ends]
    rintro ⟨o', ho', heq⟩
    have hbounds' := hin o' ho'
    have hne : o ≠ o' := by
      rintro rfl
      simp only [limit] at heq
      omega
    have := apart_of_mem hapart ho ho' hne
    simp only [InHeap, Apart, limit] at *
    omega

omit hapart in
/-- The search for the first object that starts at `x` or behind it. -/
theorem findObjBeg_eq {rangeEnd x : Nat} (hrange : o.addr - m.regionStart ≤ rangeEnd)
    (haligned : rangeEnd % 64 = 0) (hx : m.regionStart ≤ x) (hxo : x ≤ o.addr)
    (hfirst : ∀ o' ∈ objs, x ≤ o'.addr → o.addr ≤ o'.addr) :
    m.findObjBeg (x - m.regionStart) rangeEnd = o.addr - m.regionStart := by
  rw [findObjBeg, BitMap.getNextOneOffsetAlignedRight_eq _ (by omega) haligned]
  symm
  apply BitMap.eq_nextWhere (by omega) (by omega)
  · exact fun _ => (hmarks.beg _).mpr ⟨o, ho, rfl⟩
  · intro j hlow hhigh
    rw [← Bool.not_eq_true, hmarks.beg]
    rintro ⟨o', ho', heq⟩
    have hbounds := hin o' ho'
    have := hfirst o' ho'
    simp only [InHeap] at *
    omega

/-- The loop counts the words of the objects from the cut `x` up to the object `o`. -/
theorem liveWordsLoop_eq {rangeEnd x fuel liveBits : Nat} (haligned : rangeEnd % 64 = 0)
    (hrange : o.addr - m.regionStart ≤ rangeEnd) (hx : m.regionStart ≤ x) (hxo : x ≤ o.addr)
    (hcut : ∀ o' ∈ objs, o'.limit ≤ x ∨ x ≤ o'.addr) (hfuel : o.addr - x < fuel) :
    m.liveWordsLoop (o.addr - m.regionStart) rangeEnd fuel
      (m.findObjBeg (x - m.regionStart) rangeEnd) liveBits =
        some (liveBits + (rank objs o.addr - rank objs x)) := by
  induction fuel generalizing x liveBits with
  | zero => omega
  | succ fuel ih =>
    have hoBounds := hin o ho
    -- the first object that starts at the cut or behind it
    obtain ⟨first, hfirst, hxf, hfo, hnone⟩ := exists_first_from ho hxo
    have hfBounds := hin first hfirst
    have hbeg := findObjBeg_eq hmarks hin hfirst (by omega : first.addr -
      m.regionStart ≤ rangeEnd) haligned hx hxf hnone
    have hgap : rank objs first.addr = rank objs x := by
      rw [← rank_add_covered hxf, covered_eq_zero, Nat.add_zero]
      intro o' ho'
      exact (hcut o' ho').imp id (hnone o' ho')
    rw [hbeg, liveWordsLoop]
    split
    next hlt =>
      have hne : first ≠ o := by
        rintro rfl
        omega
      have hsplit := apart_of_mem hapart hfirst ho hne
      have hlimit : rank objs first.limit = rank objs first.addr + (first.limit - first.addr) :=
        rank_of_mem hapart hfirst (Nat.le_add_right _ _) le_rfl
      have hend := findObjEnd_eq hmarks hapart hin hfirst (by
        simp only [InHeap, Apart, limit] at *
        omega : first.limit ≤ m.regionStart + rangeEnd) haligned
      have hself : first.addr + first.len = first.limit := rfl
      have hmono : rank objs first.limit ≤ rank objs o.addr := rank_mono (by
        simp only [InHeap, Apart, limit] at *
        omega)
      have hnext : first.limit - 1 - m.regionStart + 1 = first.limit - m.regionStart := by
        simp only [InHeap] at *
        omega
      simp only [hend, hnext]
      rw [ih (by simp only [InHeap] at *; omega) (by simp only [InHeap, Apart, limit] at *; omega)
        (fun o' ho' => ?_) (by simp only [InHeap, Apart, limit] at *; omega)]
      · congr 1
        simp only [InHeap] at *
        omega
      · -- the end of an object cuts no other object
        by_cases hsame : first = o'
        · exact Or.inl (hsame ▸ le_rfl)
        · have hapart' := apart_of_mem hapart hfirst ho' hsame
          have hcut' := hcut o' ho'
          have hnone' := hnone o' ho'
          simp only [InHeap, Apart, limit] at *
          omega
    next hge =>
      have heq : first.addr = o.addr := by
        simp only [InHeap] at *
        omega
      rw [← heq, hgap, Nat.sub_self]
      rfl

/-- The count from `x`, in front of which the objects may be cut off up to `cut`. -/
theorem liveWordsInRange_eq {x cut : Nat} (hx : m.regionStart ≤ x) (hxc : x ≤ cut)
    (hco : cut ≤ o.addr) (hcut : ∀ o' ∈ objs, o'.limit ≤ cut ∨ cut ≤ o'.addr)
    (hnone : ∀ o' ∈ objs, x ≤ o'.addr → cut ≤ o'.addr) :
    m.liveWordsInRange x o.addr = some (rank objs o.addr - rank objs cut) := by
  have hoBounds := hin o ho
  have haligned : BitMap.wordAlignUp (o.addr - m.regionStart) % 64 = 0 := by
    rw [BitMap.wordAlignUp, BitMap.bitsPerWord]
    omega
  have hrange : o.addr - m.regionStart ≤ BitMap.wordAlignUp (o.addr - m.regionStart) := by
    rw [BitMap.wordAlignUp, BitMap.bitsPerWord]
    omega
  have hsame : m.findObjBeg (x - m.regionStart) (BitMap.wordAlignUp (o.addr - m.regionStart)) =
      m.findObjBeg (cut - m.regionStart) (BitMap.wordAlignUp (o.addr - m.regionStart)) := by
    obtain ⟨first, hfirst, hcf, hfo, hmin⟩ := exists_first_from ho hco
    rw [findObjBeg_eq hmarks hin hfirst (by omega) haligned hx (by omega)
        (fun o' ho' h => hmin o' ho' (hnone o' ho' h)),
      findObjBeg_eq hmarks hin hfirst (by omega) haligned (by omega) hcf hmin]
  have hloop := @liveWordsLoop_eq m size objs o hmarks hapart hin ho _ cut
    (o.addr - m.regionStart + 1) 0 haligned hrange (by omega) hco hcut (by omega)
  rw [Nat.zero_add] at hloop
  rw [liveWordsInRange]
  simp only [addrToBit_eq, hsame]
  exact hloop

end LiveWords

end ParMarkBitMap

end HotSpot
