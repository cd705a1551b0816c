import HotSpot.ParallelScavenge.ParMarkBitMap
import Mathlib

/-! # Walking a range of the mark bitmap

The live words of a range, and the iteration that hands each object in a range to one closure
and the dead space behind it to another. The searches end at a multiple of the word width, so
that what they find may lie behind the range.
-/

namespace HotSpot

open Extent

namespace ParMarkBitMap

variable (m : ParMarkBitMap)

def bitToAddr (bit : Nat) : Nat := m.regionStart + bitsToWords bit

/-- `live_words_in_range(HeapWord*, HeapWord*)`, the loop. -/
def liveWordsToLoop (endBit rangeEnd : Nat) : Nat → Nat → Nat → Option Nat
  | 0, _, _ => none
  | fuel + 1, begBit, liveBits =>
    if begBit < endBit then
      let tmpEnd := m.findObjEnd begBit rangeEnd
      if tmpEnd < endBit then
        liveWordsToLoop endBit rangeEnd fuel (m.findObjBeg (tmpEnd + 1) rangeEnd)
          (liveBits + (tmpEnd - begBit + 1))
      else some (bitsToWords (liveBits + (endBit - begBit)))
    else some (bitsToWords liveBits)

/-- `live_words_in_range(HeapWord*, HeapWord*)`. Every round raises the bit it starts at. -/
def liveWordsTo (begAddr endAddr : Nat) : Option Nat :=
  let endBit := m.addrToBit endAddr
  let rangeEnd := BitMap.wordAlignUp endBit
  m.liveWordsToLoop endBit rangeEnd (endBit + 1) (m.findObjBeg (m.addrToBit begAddr) rangeEnd) 0

inductive IterationStatus
  | incomplete
  | complete
  | full
  | wouldOverflow
  deriving DecidableEq, Repr

/-- `do_addr` of a `ParMarkBitMapClosure` with a state. -/
abbrev Closure (σ : Type) := Nat → Nat → σ → IterationStatus × σ

/-- What `iterate` returns, the source that it sets, and the state of the closures. -/
structure Iteration (σ : Type) where
  status : IterationStatus
  source : Option Nat
  state : σ

def objSize (begBit endBit : Nat) : Nat := bitsToWords (endBit + 1 - begBit)

section Iterate

variable {σ : Type} (liveClosure deadClosure : Closure σ) (rangeEnd deadRangeEnd : Nat)

/-- The loop of the `iterate` with two closures. -/
def iterateLoop : Nat → Nat → σ → Option (Iteration σ)
  | 0, _, _ => none
  | fuel + 1, curBeg, s =>
    if curBeg < rangeEnd then
      let curEnd := m.findObjEnd curBeg (BitMap.wordAlignUp rangeEnd)
      -- The obj ends outside the range.
      if rangeEnd ≤ curEnd then some ⟨.incomplete, some (m.bitToAddr curBeg), s⟩
      else
        let (status, s) := liveClosure (m.bitToAddr curBeg) (objSize curBeg curEnd) s
        if status ≠ .incomplete then some ⟨status, none, s⟩
        else
          let deadSpaceBeg := curEnd + 1
          let curBeg := m.findObjBeg deadSpaceBeg (BitMap.wordAlignUp deadRangeEnd)
          let deadSpaceEnd := min (curBeg - 1) (deadRangeEnd - 1)
          let s :=
            if deadSpaceBeg < curBeg then
              (deadClosure (m.bitToAddr deadSpaceBeg) (objSize deadSpaceBeg deadSpaceEnd) s).2
            else s
          iterateLoop fuel curBeg s
    else some ⟨.complete, some (m.bitToAddr rangeEnd), s⟩

/-- `iterate` with two closures, on bits. -/
def iterate (rangeBeg : Nat) (s : σ) : Option (Iteration σ) :=
  if rangeBeg < rangeEnd ∧ m.begBits.at_ rangeBeg = false then
    -- The range starts with dead space.
    let curBeg := m.findObjBeg (rangeBeg + 1) (BitMap.wordAlignUp deadRangeEnd)
    let deadSpaceEnd := min (curBeg - 1) (deadRangeEnd - 1)
    let s := (deadClosure (m.bitToAddr rangeBeg) (objSize rangeBeg deadSpaceEnd) s).2
    m.iterateLoop liveClosure deadClosure rangeEnd deadRangeEnd (rangeEnd + 1) curBeg s
  else m.iterateLoop liveClosure deadClosure rangeEnd deadRangeEnd (rangeEnd + 1) rangeBeg s

end Iterate

/-! ## Searches -/

section Searches

variable {m} {size : Nat} {objs : List Extent} {o : Extent} (hmarks : m.Marks size objs)
  (hin : ∀ o ∈ objs, InHeap m size o)
include hmarks hin

/-- A search finds the first object that begins at `x` or behind it, or ends the search. -/
theorem findObjBeg_cases {searchEnd x : Nat} (haligned : searchEnd % 64 = 0)
    (hx : m.regionStart ≤ x) (hxe : x - m.regionStart ≤ searchEnd) :
    (∃ first ∈ objs, m.findObjBeg (x - m.regionStart) searchEnd = first.addr - m.regionStart ∧
        x ≤ first.addr ∧ first.addr - m.regionStart < searchEnd ∧
        ∀ o' ∈ objs, x ≤ o'.addr → first.addr ≤ o'.addr) ∨
      m.findObjBeg (x - m.regionStart) searchEnd = searchEnd ∧
        ∀ o' ∈ objs, x ≤ o'.addr → searchEnd ≤ o'.addr - m.regionStart := by
  by_cases hexists : ∃ o ∈ objs, x ≤ o.addr ∧ o.addr - m.regionStart < searchEnd
  · obtain ⟨o, ho, hxo, hlt⟩ := hexists
    obtain ⟨first, hfirst, hxf, hfo, hmin⟩ := exists_first_from ho hxo
    exact Or.inl ⟨first, hfirst,
      findObjBeg_eq hmarks hin hfirst (by omega) haligned hx hxf hmin, hxf, by omega, hmin⟩
  · have hnone : ∀ o' ∈ objs, x ≤ o'.addr → searchEnd ≤ o'.addr - m.regionStart := by
      intro o' ho' hxo'
      by_contra hlt
      exact hexists ⟨o', ho', hxo', by omega⟩
    refine Or.inr ⟨?_, hnone⟩
    rw [findObjBeg, BitMap.getNextOneOffsetAlignedRight_eq _ hxe haligned]
    symm
    apply BitMap.eq_nextWhere hxe (Nat.le_refl _) (fun h => absurd h (Nat.lt_irrefl _))
    intro j hlow hhigh
    rw [← Bool.not_eq_true, hmarks.beg]
    rintro ⟨o', ho', heq⟩
    have hbounds := hin o' ho'
    have := hnone o' ho'
    simp only [InHeap] at hbounds
    omega

/-- The search for the end bit of an object stops at the end bit or with the search. -/
theorem findObjEnd_min (hapart : objs.Pairwise Apart) (ho : o ∈ objs) {searchEnd : Nat}
    (haligned : searchEnd % 64 = 0) (hbeg : o.addr - m.regionStart ≤ searchEnd) :
    m.findObjEnd (o.addr - m.regionStart) searchEnd =
      min (o.limit - 1 - m.regionStart) searchEnd := by
  have hbounds := hin o ho
  by_cases hinside : o.limit ≤ m.regionStart + searchEnd
  · rw [findObjEnd_eq hmarks hapart hin ho hinside haligned, Nat.min_eq_left (by omega)]
  · rw [Nat.min_eq_right (by omega), findObjEnd,
      BitMap.getNextOneOffsetAlignedRight_eq _ hbeg haligned]
    symm
    apply BitMap.eq_nextWhere hbeg (Nat.le_refl _) (fun h => absurd h (Nat.lt_irrefl _))
    intro j hlow hhigh
    rw [← Bool.not_eq_true, hmarks.ends]
    rintro ⟨o', ho', heq⟩
    have hbounds' := hin o' ho'
    have hne : o ≠ o' := by
      rintro rfl
      omega
    have := apart_of_mem hapart ho ho' hne
    simp only [InHeap, Apart, limit] at *
    omega

end Searches

theorem wordAlignUp_mod (bit : Nat) : BitMap.wordAlignUp bit % 64 = 0 := by
  rw [BitMap.wordAlignUp, BitMap.bitsPerWord]
  omega

theorem le_wordAlignUp (bit : Nat) : bit ≤ BitMap.wordAlignUp bit := by
  rw [BitMap.wordAlignUp, BitMap.bitsPerWord]
  omega

/-! ## Live words -/

/-- The words of `[a, b)` of the objects that begin in it. -/
def begun (objs : List Extent) (a b : Nat) : Nat :=
  (objs.map fun o => if a ≤ o.addr then o.overlap a b else 0).sum

theorem begun_cons {o : Extent} {objs : List Extent} {a b : Nat} :
    begun (o :: objs) a b = (if a ≤ o.addr then o.overlap a b else 0) + begun objs a b := by
  simp [begun]

/-- Behind a cut the objects that have words are those that begin there. -/
theorem begun_eq_covered {objs : List Extent} {a c b : Nat} (hac : a ≤ c)
    (hbegin : ∀ o ∈ objs, a ≤ o.addr → c ≤ o.addr ∨ b ≤ o.addr)
    (hbefore : ∀ o ∈ objs, o.addr < a → o.limit ≤ c ∨ b ≤ c) :
    begun objs a b = covered objs c b := by
  induction objs with
  | nil => rfl
  | cons o objs ih =>
    rw [List.forall_mem_cons] at hbegin hbefore
    rw [begun_cons, covered_cons, ih hbegin.2 hbefore.2]
    have := hbegin.1
    have := hbefore.1
    simp only [overlap, limit] at *
    split_ifs <;> omega

section LiveWords

variable {m} {size : Nat} {objs : List Extent} (hmarks : m.Marks size objs)
  (hapart : objs.Pairwise Apart) (hin : ∀ o ∈ objs, InHeap m size o)
include hmarks hapart hin

/-- From a cut the loop counts the covered words. -/
theorem liveWordsToLoop_eq {endAddr x fuel liveBits : Nat} (hx : m.regionStart ≤ x)
    (hxe : x ≤ endAddr) (hcut : ∀ o ∈ objs, o.limit ≤ x ∨ x ≤ o.addr) (hfuel : endAddr - x < fuel) :
    m.liveWordsToLoop (endAddr - m.regionStart) (BitMap.wordAlignUp (endAddr - m.regionStart)) fuel
        (m.findObjBeg (x - m.regionStart) (BitMap.wordAlignUp (endAddr - m.regionStart))) liveBits =
      some (liveBits + covered objs x endAddr) := by
  have haligned := wordAlignUp_mod (endAddr - m.regionStart)
  have hsearch := le_wordAlignUp (endAddr - m.regionStart)
  generalize BitMap.wordAlignUp (endAddr - m.regionStart) = searchEnd at *
  induction fuel generalizing x liveBits with
  | zero => omega
  | succ fuel ih =>
    rw [liveWordsToLoop]
    rcases findObjBeg_cases hmarks hin haligned hx (by omega) with
      ⟨first, hfirst, hbeg, hxf, hlt, hmin⟩ | ⟨hbeg, hnone⟩
    · have hbounds := hin first hfirst
      simp only [InHeap, limit] at hbounds
      have hgap : covered objs x first.addr = 0 :=
        covered_eq_zero fun o ho => (hcut o ho).imp id (hmin o ho)
      have hself : ∀ w, first.addr ≤ w → w ≤ first.limit →
          covered objs first.addr w = w - first.addr := by
        intro w hlow hhigh
        have := rank_of_mem hapart hfirst hlow hhigh
        have := @rank_add_covered objs _ _ hlow
        omega
      rw [hbeg]
      split
      next hinside =>
        have hsum := @covered_add objs x first.addr endAddr hxf (by omega)
        simp only [findObjEnd_min hmarks hin hapart hfirst haligned hlt.le]
        split
        next hends =>
          have hlimit : first.limit ≤ endAddr := by
            simp only [limit] at *
            omega
          have hnext : min (first.limit - 1 - m.regionStart) searchEnd + 1 =
              first.limit - m.regionStart := by
            simp only [limit] at *
            omega
          have hsplit := @covered_add objs first.addr first.limit endAddr
            (Nat.le_add_right _ _) hlimit
          have hwhole := hself first.limit (Nat.le_add_right _ _) (Nat.le_refl _)
          rw [hnext, ih (by simp only [limit]; omega) hlimit (fun o ho => ?_)
            (by simp only [limit] at *; omega)]
          · congr 1
            simp only [limit] at *
            omega
          · -- the end of an object cuts no other object
            by_cases hsame : first = o
            · exact Or.inl (hsame ▸ Nat.le_refl _)
            · have := apart_of_mem hapart hfirst ho hsame
              have := hcut o ho
              have := hmin o ho
              have := hin o ho
              simp only [InHeap, Apart, limit] at *
              omega
        next hbeyond =>
          have hpart := hself endAddr (by omega) (by simp only [limit] at *; omega)
          rw [hsum, hgap, hpart]
          congr 1
          simp only [bitsToWords, objGranularityShift, Nat.shiftLeft_zero]
          omega
      next houtside =>
        have hzero : covered objs x endAddr = 0 :=
          covered_eq_zero fun o ho => (hcut o ho).imp id fun h => by
            have := hmin o ho h
            omega
        rw [hzero]
        rfl
    · have hzero : covered objs x endAddr = 0 :=
        covered_eq_zero fun o ho => (hcut o ho).imp id fun h => by
          have := hnone o ho h
          have := hin o ho
          simp only [InHeap] at this
          omega
      rw [hbeg, if_neg (by omega), hzero]
      rfl

theorem liveWordsTo_eq {begAddr endAddr : Nat} (hbeg : m.regionStart ≤ begAddr)
    (hrange : begAddr ≤ endAddr) :
    m.liveWordsTo begAddr endAddr = some (begun objs begAddr endAddr) := by
  have haligned := wordAlignUp_mod (endAddr - m.regionStart)
  have hsearch := le_wordAlignUp (endAddr - m.regionStart)
  rw [liveWordsTo]
  simp only [addrToBit_eq]
  rcases findObjBeg_cases hmarks hin haligned hbeg (by omega) with
    ⟨first, hfirst, hfound, hxf, hlt, hmin⟩ | ⟨hfound, hnone⟩
  · by_cases hinside : first.addr ≤ endAddr
    · have hcut : ∀ o ∈ objs, o.limit ≤ first.addr ∨ first.addr ≤ o.addr := by
        intro o ho
        by_cases hsame : first = o
        · exact Or.inr (hsame ▸ Nat.le_refl _)
        · have := apart_of_mem hapart hfirst ho hsame
          have := hmin o ho
          simp only [Apart, limit] at *
          omega
      have hbegun : begun objs begAddr endAddr = covered objs first.addr endAddr :=
        begun_eq_covered hxf (fun o ho h => Or.inl (hmin o ho h)) fun o ho h =>
          Or.inl ((hcut o ho).resolve_right (by omega))
      have hsame : m.findObjBeg (begAddr - m.regionStart)
          (BitMap.wordAlignUp (endAddr - m.regionStart)) =
          m.findObjBeg (first.addr - m.regionStart)
            (BitMap.wordAlignUp (endAddr - m.regionStart)) := by
        rw [hfound, findObjBeg_eq hmarks hin hfirst hlt.le haligned (by omega) (Nat.le_refl _)
          fun _ _ h => h]
      rw [hsame, liveWordsToLoop_eq hmarks hapart hin (by omega) hinside hcut (by omega), hbegun,
        Nat.zero_add]
    · have hbegun : begun objs begAddr endAddr = covered objs endAddr endAddr :=
        begun_eq_covered hrange (fun o ho h => Or.inl (by have := hmin o ho h; omega))
          fun o ho h => Or.inr (Nat.le_refl _)
      rw [hfound, liveWordsToLoop, if_neg (by omega), hbegun, covered_of_le (Nat.le_refl _)]
      rfl
  · have hbegun : begun objs begAddr endAddr = covered objs endAddr endAddr := by
      refine begun_eq_covered hrange (fun o ho h => Or.inl ?_) fun o ho h => Or.inr (Nat.le_refl _)
      have := hnone o ho h
      have := hin o ho
      simp only [InHeap] at this
      omega
    rw [hfound, liveWordsToLoop, if_neg (by omega), hbegun, covered_of_le (Nat.le_refl _)]
    rfl

end LiveWords

/-! ## Calls of the closures -/

inductive ClosureCall
  | live (addr size : Nat)
  | dead (addr size : Nat)
  deriving DecidableEq, Repr

def ClosureCall.addr : ClosureCall → Nat
  | live addr _ => addr
  | dead addr _ => addr

def ClosureCall.run {σ : Type} (liveClosure deadClosure : Closure σ) (s : σ) : ClosureCall → σ
  | live addr size => (liveClosure addr size s).2
  | dead addr size => (deadClosure addr size s).2

/-- There is no object in `[a, b)`, and one begins at `b` or the dead range ends there. -/
structure DeadSpace (objs : List Extent) (deadRangeEnd a b : Nat) : Prop where
  le : a ≤ b
  bound : b ≤ deadRangeEnd
  free : ∀ o ∈ objs, o.limit ≤ a ∨ b ≤ o.addr
  ends : b = deadRangeEnd ∨ ∃ o ∈ objs, o.addr = b

/-- Dead space begins at `a` within a bit map word, at the end of the dead range. -/
def CutOff (m : ParMarkBitMap) (objs : List Extent) (deadRangeEnd a : Nat) : Prop :=
  a = deadRangeEnd ∧ (deadRangeEnd - m.regionStart) % 64 ≠ 0 ∧ ∀ o ∈ objs, o.addr ≠ deadRangeEnd

/-- The calls from `p` on: the objects up to `rangeEnd`, each with the dead space behind it. -/
structure CallsFrom (m : ParMarkBitMap) (objs : List Extent) (rangeEnd deadRangeEnd p : Nat)
    (calls : List ClosureCall) : Prop where
  ordered : calls.Pairwise fun c c' => c.addr < c'.addr
  behind : ∀ c ∈ calls, p ≤ c.addr
  live : ∀ a n, .live a n ∈ calls ↔
    ∃ o ∈ objs, p ≤ o.addr ∧ o.limit ≤ rangeEnd ∧ o.addr = a ∧ o.len = n
  dead : ∀ a n, .dead a n ∈ calls ↔
    (∃ o ∈ objs, p ≤ o.addr ∧ o.limit ≤ rangeEnd ∧ o.limit = a) ∧
      DeadSpace objs deadRangeEnd a (a + n) ∧ (0 < n ∨ CutOff m objs deadRangeEnd a)

/-- `q` is where the next object behind `x` begins, or where the search for it ends. -/
structure NextObject (m : ParMarkBitMap) (objs : List Extent) (deadRangeEnd x q : Nat) : Prop where
  le : x ≤ q
  bound : q ≤ m.regionStart + BitMap.wordAlignUp (deadRangeEnd - m.regionStart)
  start : (∃ o ∈ objs, o.addr = q) ∨
    q = m.regionStart + BitMap.wordAlignUp (deadRangeEnd - m.regionStart)
  next : ∀ o ∈ objs, x ≤ o.addr → q ≤ o.addr

variable {m} {size : Nat} {objs : List Extent} {rangeEnd deadRangeEnd x q p : Nat}

theorem exists_nextObject (hmarks : m.Marks size objs) (hin : ∀ o ∈ objs, InHeap m size o)
    (hx : m.regionStart ≤ x) (hxd : x ≤ deadRangeEnd) :
    ∃ q, m.findObjBeg (x - m.regionStart) (BitMap.wordAlignUp (deadRangeEnd - m.regionStart)) =
      q - m.regionStart ∧ NextObject m objs deadRangeEnd x q := by
  have haligned := wordAlignUp_mod (deadRangeEnd - m.regionStart)
  have hsearch := le_wordAlignUp (deadRangeEnd - m.regionStart)
  rcases findObjBeg_cases hmarks hin haligned hx (by omega) with
    ⟨first, hfirst, hfound, hxf, hlt, hmin⟩ | ⟨hfound, hnone⟩
  · exact ⟨first.addr, hfound, hxf, by omega, Or.inl ⟨first, hfirst, rfl⟩, hmin⟩
  · refine ⟨_, by omega, by omega, Nat.le_refl _, Or.inr rfl, fun o ho h => ?_⟩
    have := hnone o ho h
    have := hin o ho
    simp only [InHeap] at this
    omega

/-- The dead space at a cut ends with the next object or the range. -/
theorem NextObject.deadSpace_iff (h : NextObject m objs deadRangeEnd x q)
    (hin : ∀ o ∈ objs, InHeap m size o) (hx : m.regionStart ≤ x) (hxd : x ≤ deadRangeEnd)
    (hcut : ∀ o ∈ objs, o.limit ≤ x ∨ x ≤ o.addr) (n : Nat) :
    DeadSpace objs deadRangeEnd x (x + n) ∧ (0 < n ∨ CutOff m objs deadRangeEnd x) ↔
      x < q ∧ n = min q deadRangeEnd - x := by
  have hle := h.le
  have hbound := h.bound
  have hsearch := le_wordAlignUp (deadRangeEnd - m.regionStart)
  have hword : BitMap.wordAlignUp (deadRangeEnd - m.regionStart) = deadRangeEnd - m.regionStart ↔
      (deadRangeEnd - m.regionStart) % 64 = 0 := by
    rw [BitMap.wordAlignUp, BitMap.bitsPerWord]
    omega
  constructor
  · rintro ⟨hspace, hsize⟩
    have hend := hspace.bound
    rcases hsize with hpos | ⟨hlast, hunaligned, hnone⟩
    · have hfar : x + n ≤ q := by
        rcases h.start with ⟨o, ho, heq⟩ | heq
        · have := hspace.free o ho
          have := hin o ho
          simp only [InHeap, limit] at *
          omega
        · omega
      rcases hspace.ends with heq | ⟨o, ho, heq⟩
      · omega
      · have := h.next o ho (by omega)
        omega
    · have hne : q ≠ x := by
        intro heq
        rcases h.start with ⟨o, ho, hstart⟩ | hstart
        · exact hnone o ho (hstart.trans (heq.trans hlast))
        · omega
      omega
  · rintro ⟨hlt, rfl⟩
    have hsum : x + (min q deadRangeEnd - x) = min q deadRangeEnd := by omega
    rw [hsum]
    refine ⟨⟨by omega, by omega, fun o ho => ?_, ?_⟩, ?_⟩
    · exact (hcut o ho).imp id fun hxo => Nat.le_trans (Nat.min_le_left _ _) (h.next o ho hxo)
    · rcases Nat.le_total deadRangeEnd q with hge | hle
      · exact Or.inl (Nat.min_eq_right hge)
      · rw [Nat.min_eq_left hle]
        rcases h.start with hobj | heq
        · exact Or.inr hobj
        · exact Or.inl (by omega)
    · by_cases hxlt : x < deadRangeEnd
      · exact Or.inl (by omega)
      · refine Or.inr ⟨by omega, fun hzero => ?_, fun o ho heq => ?_⟩
        · have := hword.mpr hzero
          omega
        · have := h.next o ho (by omega)
          omega

/-- No object from `p` on lies within the range. -/
theorem callsFrom_nil (h : ∀ o ∈ objs, p ≤ o.addr → rangeEnd < o.limit) :
    CallsFrom m objs rangeEnd deadRangeEnd p [] where
  ordered := List.Pairwise.nil
  behind c hc := by simp at hc
  live a n := by
    refine iff_of_false (by simp) ?_
    rintro ⟨o, ho, hp, hlimit, -⟩
    exact absurd (h o ho hp) (by omega)
  dead a n := by
    refine iff_of_false (by simp) ?_
    rintro ⟨⟨o, ho, hp, hlimit, -⟩, -⟩
    exact absurd (h o ho hp) (by omega)

/-- The call for dead space from `x` on, where the next object begins at `q`. -/
def deadCalls (deadRangeEnd x q : Nat) : List ClosureCall :=
  if x < q then [.dead x (min q deadRangeEnd - x)] else []

theorem mem_deadCalls {c : ClosureCall} :
    c ∈ deadCalls deadRangeEnd x q ↔ x < q ∧ c = .dead x (min q deadRangeEnd - x) := by
  rw [deadCalls]
  split <;> simp [*]

/-- An object in the range, the dead space behind it, and the calls from the next one on. -/
theorem CallsFrom.cons {o : Extent} {calls : List ClosureCall}
    (hcalls : CallsFrom m objs rangeEnd deadRangeEnd q calls) (hapart : objs.Pairwise Apart)
    (hin : ∀ o ∈ objs, InHeap m size o) (ho : o ∈ objs) (hlimit : o.limit ≤ rangeEnd)
    (hrange : rangeEnd ≤ deadRangeEnd) (hnext : NextObject m objs deadRangeEnd o.limit q) :
    CallsFrom m objs rangeEnd deadRangeEnd o.addr
      (.live o.addr o.len :: (deadCalls deadRangeEnd o.limit q ++ calls)) := by
  have hbounds := hin o ho
  have hlen : o.addr < o.limit := by
    simp only [InHeap, limit] at *
    omega
  have hle := hnext.le
  -- the other objects from this one on begin behind it
  have hothers : ∀ o' ∈ objs, o.addr ≤ o'.addr → o' = o ∨ q ≤ o'.addr := by
    intro o' ho' hge
    by_cases hsame : o = o'
    · exact Or.inl hsame.symm
    · refine Or.inr (hnext.next o' ho' ?_)
      have := apart_of_mem hapart ho ho' hsame
      have := hin o' ho'
      simp only [InHeap, Apart, limit] at *
      omega
  have hcut : ∀ o' ∈ objs, o'.limit ≤ o.limit ∨ o.limit ≤ o'.addr := by
    intro o' ho'
    by_cases hsame : o = o'
    · exact Or.inl (hsame ▸ Nat.le_refl _)
    · have := apart_of_mem hapart ho ho' hsame
      simp only [Apart, limit] at *
      omega
  refine ⟨?_, ?_, fun a n => ?_, fun a n => ?_⟩
  · rw [List.pairwise_cons, List.pairwise_append]
    refine ⟨fun c hc => ?_, ?_, hcalls.ordered, fun c hc c' hc' => ?_⟩
    · rcases List.mem_append.mp hc with hc | hc
      · obtain ⟨-, rfl⟩ := mem_deadCalls.mp hc
        exact hlen
      · exact Nat.lt_of_lt_of_le hlen (Nat.le_trans hle (hcalls.behind c hc))
    · rw [deadCalls]
      split <;> simp
    · obtain ⟨hlt, rfl⟩ := mem_deadCalls.mp hc
      exact Nat.lt_of_lt_of_le hlt (hcalls.behind c' hc')
  · intro c hc
    rcases List.mem_cons.mp hc with rfl | hc
    · exact Nat.le_refl _
    · rcases List.mem_append.mp hc with hc | hc
      · obtain ⟨-, rfl⟩ := mem_deadCalls.mp hc
        exact hlen.le
      · exact Nat.le_trans hlen.le (Nat.le_trans hle (hcalls.behind c hc))
  · simp only [List.mem_cons, List.mem_append, mem_deadCalls, hcalls.live, ClosureCall.live.injEq,
      reduceCtorEq, and_false, false_or]
    constructor
    · rintro (⟨rfl, rfl⟩ | ⟨o', ho', hge, hrest⟩)
      · exact ⟨o, ho, Nat.le_refl _, hlimit, rfl, rfl⟩
      · exact ⟨o', ho', by omega, hrest⟩
    · rintro ⟨o', ho', hge, hin', rfl, rfl⟩
      rcases hothers o' ho' hge with rfl | hbehind
      · exact Or.inl ⟨rfl, rfl⟩
      · exact Or.inr ⟨o', ho', hbehind, hin', rfl, rfl⟩
  · simp only [List.mem_cons, List.mem_append, mem_deadCalls, hcalls.dead, ClosureCall.dead.injEq,
      reduceCtorEq, false_or]
    have hspace := hnext.deadSpace_iff hin (hbounds.1.trans hlen.le) (by omega) hcut n
    constructor
    · rintro (⟨hlt, rfl, hn⟩ | ⟨⟨o', ho', hge, hrest⟩, hdead⟩)
      · exact ⟨⟨o, ho, Nat.le_refl _, hlimit, rfl⟩, hspace.mpr ⟨hlt, hn⟩⟩
      · exact ⟨⟨o', ho', by omega, hrest⟩, hdead⟩
    · rintro ⟨⟨o', ho', hge, hin', rfl⟩, hdead⟩
      rcases hothers o' ho' hge with rfl | hbehind
      · have := hspace.mp hdead
        exact Or.inl ⟨this.1, rfl, this.2⟩
      · exact Or.inr ⟨⟨o', ho', hbehind, hin', rfl⟩, hdead⟩

/-! ## The loop -/

/-- The closure never stops the iteration. -/
def NeverOverflows {σ : Type} (liveClosure : Closure σ) : Prop :=
  ∀ addr size s, (liveClosure addr size s).1 = .incomplete

/-- The iteration returns, and the closures have seen the calls in order. -/
def Makes {σ : Type} (result : Option (Iteration σ)) (s : σ) (liveClosure deadClosure : Closure σ)
    (calls : List ClosureCall) : Prop :=
  ∃ r, result = some r ∧ (r.status = .incomplete ∨ r.status = .complete) ∧
    r.state = calls.foldl (ClosureCall.run liveClosure deadClosure) s

section Loop

variable (hmarks : m.Marks size objs) (hapart : objs.Pairwise Apart)
  (hin : ∀ o ∈ objs, InHeap m size o) (hstart : m.regionStart ≤ rangeEnd)
  (hrange : rangeEnd ≤ deadRangeEnd)
include hmarks hapart hin hstart hrange

/-- One round, at an object in the range. -/
theorem iterateLoop_step {σ : Type} {liveClosure deadClosure : Closure σ} {o : Extent}
    (ho : o ∈ objs)
    (hlimit : o.limit ≤ rangeEnd) (hlive : NeverOverflows liveClosure)
    (hfound : m.findObjBeg (o.limit - m.regionStart)
      (BitMap.wordAlignUp (deadRangeEnd - m.regionStart)) = q - m.regionStart)
    (hq : o.limit ≤ q) (fuel : Nat) (s : σ) :
    m.iterateLoop liveClosure deadClosure (rangeEnd - m.regionStart) (deadRangeEnd - m.regionStart)
        (fuel + 1) (o.addr - m.regionStart) s =
      m.iterateLoop liveClosure deadClosure (rangeEnd - m.regionStart)
        (deadRangeEnd - m.regionStart) fuel (q - m.regionStart)
        ((.live o.addr o.len :: deadCalls deadRangeEnd o.limit q).foldl
          (ClosureCall.run liveClosure deadClosure) s) := by
  have hbounds := hin o ho
  have haligned := wordAlignUp_mod (rangeEnd - m.regionStart)
  have hsearch := le_wordAlignUp (rangeEnd - m.regionStart)
  have hself : o.limit = o.addr + o.len := rfl
  simp only [InHeap] at hbounds
  have hend := findObjEnd_min hmarks hin hapart ho haligned (by omega)
  rw [Nat.min_eq_left (by omega)] at hend
  have haddr : m.bitToAddr (o.addr - m.regionStart) = o.addr := by
    simp only [bitToAddr, bitsToWords, objGranularityShift, Nat.shiftLeft_zero]
    omega
  have hsize : objSize (o.addr - m.regionStart) (o.limit - 1 - m.regionStart) = o.len := by
    simp only [objSize, bitsToWords, objGranularityShift, Nat.shiftLeft_zero]
    omega
  have hnext : o.limit - 1 - m.regionStart + 1 = o.limit - m.regionStart := by omega
  have hdeadAddr : m.bitToAddr (o.limit - m.regionStart) = o.limit := by
    simp only [bitToAddr, bitsToWords, objGranularityShift, Nat.shiftLeft_zero]
    omega
  have hdeadSize : objSize (o.limit - m.regionStart)
      (min (q - m.regionStart - 1) (deadRangeEnd - m.regionStart - 1)) =
        min q deadRangeEnd - o.limit := by
    simp only [objSize, bitsToWords, objGranularityShift, Nat.shiftLeft_zero]
    omega
  rw [iterateLoop, if_pos (by omega)]
  simp only [hend, haddr, hsize, hnext, hfound, hdeadAddr, hdeadSize]
  rw [if_neg (by omega), if_neg (by simp [hlive o.addr o.len s]), List.foldl_cons, deadCalls]
  by_cases hdead : o.limit < q
  · rw [if_pos (by omega), if_pos hdead]
    rfl
  · rw [if_neg (by omega), if_neg hdead]
    rfl

/-- From a place where an object begins, or behind the range, the loop makes the calls that it
should. -/
theorem iterateLoop_calls (fuel : Nat) (hp : m.regionStart ≤ p)
    (hbegin : (∃ o ∈ objs, o.addr = p) ∨ rangeEnd ≤ p) (hfuel : rangeEnd - p < fuel) :
    ∃ calls, CallsFrom m objs rangeEnd deadRangeEnd p calls ∧
      ∀ {σ : Type} (liveClosure deadClosure : Closure σ) (s : σ), NeverOverflows liveClosure →
        Makes (m.iterateLoop liveClosure deadClosure (rangeEnd - m.regionStart)
          (deadRangeEnd - m.regionStart) fuel (p - m.regionStart) s) s liveClosure deadClosure
          calls := by
  induction fuel generalizing p with
  | zero => omega
  | succ fuel ih =>
    by_cases hbehind : rangeEnd ≤ p
    · refine ⟨[], callsFrom_nil fun o ho hge => ?_, fun liveClosure deadClosure s _ => ?_⟩
      · have := hin o ho
        simp only [InHeap, limit] at *
        omega
      · exact ⟨_, by rw [iterateLoop, if_neg (by omega)], Or.inr rfl, rfl⟩
    · obtain ⟨o, ho, rfl⟩ := hbegin.resolve_right hbehind
      have hbounds := hin o ho
      have hself : o.limit = o.addr + o.len := rfl
      simp only [InHeap] at hbounds
      by_cases hlimit : o.limit ≤ rangeEnd
      · obtain ⟨q, hfound, hnext⟩ := exists_nextObject hmarks hin
          (by omega : m.regionStart ≤ o.limit) (by omega : o.limit ≤ deadRangeEnd)
        have hle := hnext.le
        have hsearch := le_wordAlignUp (deadRangeEnd - m.regionStart)
        obtain ⟨calls, hcalls, hmakes⟩ := ih (p := q) (by omega)
          (hnext.start.imp id (by omega)) (by omega)
        refine ⟨_, hcalls.cons hapart hin ho hlimit hrange hnext,
          fun liveClosure deadClosure s hlive => ?_⟩
        obtain ⟨r, hr, hstatus, hstate⟩ := hmakes liveClosure deadClosure
          ((.live o.addr o.len :: deadCalls deadRangeEnd o.limit q).foldl
            (ClosureCall.run liveClosure deadClosure) s) hlive
        refine ⟨r, ?_, hstatus, ?_⟩
        · rw [iterateLoop_step hmarks hapart hin hstart hrange ho hlimit hlive hfound hle, hr]
        · rw [hstate, ← List.foldl_append]
          rfl
      · -- the object ends outside the range
        refine ⟨[], callsFrom_nil fun o' ho' hge => ?_, fun liveClosure deadClosure s _ => ?_⟩
        · by_cases hsame : o = o'
          · exact hsame ▸ Nat.lt_of_not_le hlimit
          · have := apart_of_mem hapart ho ho' hsame
            have := hin o' ho'
            simp only [InHeap, Apart, limit] at *
            omega
        · have hsearch := le_wordAlignUp (rangeEnd - m.regionStart)
          have hend := findObjEnd_min hmarks hin hapart ho
            (wordAlignUp_mod (rangeEnd - m.regionStart)) (by omega)
          refine ⟨⟨.incomplete, some (m.bitToAddr (o.addr - m.regionStart)), s⟩, ?_,
            Or.inl rfl, rfl⟩
          rw [iterateLoop, if_pos (by omega)]
          simp only [hend]
          rw [if_pos (by omega)]

/-- The calls of an iteration from a place that is not inside an object. At a cut-off dead space
there is one of size zero. -/
theorem iterate_calls {rangeBeg : Nat} (hbeg : m.regionStart ≤ rangeBeg) (hle : rangeBeg ≤ rangeEnd)
    (hcut : ∀ o ∈ objs, o.limit ≤ rangeBeg ∨ rangeBeg ≤ o.addr) :
    ∃ calls : List ClosureCall, (calls.Pairwise fun c c' => c.addr < c'.addr) ∧
      (∀ a n, .live a n ∈ calls ↔
        ∃ o ∈ objs, rangeBeg ≤ o.addr ∧ o.limit ≤ rangeEnd ∧ o.addr = a ∧ o.len = n) ∧
      (∀ a n, .dead a n ∈ calls ↔
        (a = rangeBeg ∧ rangeBeg < rangeEnd ∨
          ∃ o ∈ objs, rangeBeg ≤ o.addr ∧ o.limit ≤ rangeEnd ∧ o.limit = a) ∧
        DeadSpace objs deadRangeEnd a (a + n) ∧ (0 < n ∨ CutOff m objs deadRangeEnd a)) ∧
      ∀ {σ : Type} (liveClosure deadClosure : Closure σ) (s : σ), NeverOverflows liveClosure →
        Makes (m.iterate liveClosure deadClosure (rangeEnd - m.regionStart)
          (deadRangeEnd - m.regionStart) (rangeBeg - m.regionStart) s) s liveClosure deadClosure
          calls := by
  have hmarked :
      m.begBits.at_ (rangeBeg - m.regionStart) = false ↔ ∀ o ∈ objs, o.addr ≠ rangeBeg := by
    rw [BitMap.at_eq, ← Bool.not_eq_true, hmarks.beg]
    constructor
    · intro hnone o ho heq
      exact hnone ⟨o, ho, by rw [heq]⟩
    · rintro hnone ⟨o, ho, heq⟩
      have := hin o ho
      have := hnone o ho
      simp only [InHeap] at *
      omega
  by_cases hdead : rangeBeg < rangeEnd ∧ ∀ o ∈ objs, o.addr ≠ rangeBeg
  · obtain ⟨hlt, hunmarked⟩ := hdead
    obtain ⟨q, hfound, hbehind⟩ := exists_nextObject hmarks hin
      (by omega : m.regionStart ≤ rangeBeg + 1) (by omega : rangeBeg + 1 ≤ deadRangeEnd)
    have hge := hbehind.le
    have hbound := hbehind.bound
    have hnext : NextObject m objs deadRangeEnd rangeBeg q :=
      ⟨by omega, hbound, hbehind.start, fun o ho h => by
        have := hunmarked o ho
        exact hbehind.next o ho (by omega)⟩
    have hsearch := le_wordAlignUp (deadRangeEnd - m.regionStart)
    obtain ⟨calls, hcalls, hmakes⟩ := iterateLoop_calls hmarks hapart hin hstart hrange
      (rangeEnd - m.regionStart + 1) (by omega : m.regionStart ≤ q) (hnext.start.imp id (by omega))
      (by omega)
    have hspace := hnext.deadSpace_iff hin hbeg (by omega) hcut
    refine ⟨.dead rangeBeg (min q deadRangeEnd - rangeBeg) :: calls, ?_, fun a n => ?_,
      fun a n => ?_,
      fun liveClosure deadClosure s hlive => ?_⟩
    · rw [List.pairwise_cons]
      refine ⟨fun c hc => ?_, hcalls.ordered⟩
      exact Nat.lt_of_lt_of_le (by omega : rangeBeg < q) (hcalls.behind c hc)
    · simp only [List.mem_cons, reduceCtorEq, false_or, hcalls.live]
      constructor
      · rintro ⟨o, ho, hq, hrest⟩
        exact ⟨o, ho, by omega, hrest⟩
      · rintro ⟨o, ho, hq, hrest⟩
        exact ⟨o, ho, hnext.next o ho hq, hrest⟩
    · simp only [List.mem_cons, ClosureCall.dead.injEq, hcalls.dead]
      constructor
      · rintro (⟨rfl, rfl⟩ | ⟨⟨o, ho, hq, hrest⟩, hat⟩)
        · exact ⟨Or.inl ⟨rfl, hlt⟩, (hspace _).mpr ⟨by omega, rfl⟩⟩
        · exact ⟨Or.inr ⟨o, ho, by omega, hrest⟩, hat⟩
      · rintro ⟨⟨rfl, -⟩ | ⟨o, ho, hq, hrest⟩, hat⟩
        · exact Or.inl ⟨rfl, ((hspace n).mp hat).2⟩
        · exact Or.inr ⟨⟨o, ho, hnext.next o ho hq, hrest⟩, hat⟩
    · obtain ⟨r, hr, hstatus, hstate⟩ := hmakes liveClosure deadClosure
        (deadClosure rangeBeg (min q deadRangeEnd - rangeBeg) s).2 hlive
      refine ⟨r, ?_, hstatus, hstate⟩
      have haddr : m.bitToAddr (rangeBeg - m.regionStart) = rangeBeg := by
        simp only [bitToAddr, bitsToWords, objGranularityShift, Nat.shiftLeft_zero]
        omega
      have hsize : objSize (rangeBeg - m.regionStart)
          (min (q - m.regionStart - 1) (deadRangeEnd - m.regionStart - 1)) =
            min q deadRangeEnd - rangeBeg := by
        simp only [objSize, bitsToWords, objGranularityShift, Nat.shiftLeft_zero]
        omega
      have hsucc : rangeBeg - m.regionStart + 1 = rangeBeg + 1 - m.regionStart := by omega
      rw [iterate, if_pos ⟨by omega, hmarked.mpr hunmarked⟩]
      simp only [hsucc, hfound, haddr, hsize, hr]
  · -- the range is empty or starts with an object
    have hbegin : (∃ o ∈ objs, o.addr = rangeBeg) ∨ rangeEnd ≤ rangeBeg := by
      by_cases hlt : rangeBeg < rangeEnd
      · refine Or.inl ?_
        by_contra hnone
        exact hdead ⟨hlt, fun o ho heq => hnone ⟨o, ho, heq⟩⟩
      · exact Or.inr (by omega)
    obtain ⟨calls, hcalls, hmakes⟩ := iterateLoop_calls hmarks hapart hin hstart hrange
      (rangeEnd - m.regionStart + 1) hbeg hbegin (by omega)
    refine ⟨calls, hcalls.ordered, hcalls.live, fun a n => ?_,
      fun liveClosure deadClosure s hlive => ?_⟩
    · rw [hcalls.dead]
      refine ⟨fun hdead => ⟨Or.inr hdead.1, hdead.2⟩, ?_⟩
      rintro ⟨⟨rfl, hlt⟩ | hends, hspace, hsize⟩
      · obtain ⟨o, ho, heq⟩ := hbegin.resolve_right (by omega)
        have hbounds := hin o ho
        have hfree := hspace.free o ho
        rcases hsize with hpos | ⟨hend, -, -⟩
        · simp only [InHeap, limit] at *
          omega
        · omega
      · exact ⟨hends, hspace, hsize⟩
    · rw [iterate, if_neg]
      · exact hmakes liveClosure deadClosure s hlive
      · rintro ⟨hlt, hunmarked⟩
        exact hdead ⟨by omega, hmarked.mp hunmarked⟩

end Loop

/-! ## The walk -/

/-- The calls are one for each object within the range, and one for each block of dead space
that begins with the range or with the end of such an object, up to the next object or the end of
the dead range. -/
structure WalksRange (objs : List Extent) (rangeBeg rangeEnd deadRangeEnd : Nat)
    (calls : List ClosureCall) : Prop where
  ordered : calls.Pairwise fun c c' => c.addr < c'.addr
  live : ∀ a n, .live a n ∈ calls ↔
    ∃ o ∈ objs, rangeBeg ≤ o.addr ∧ o.limit ≤ rangeEnd ∧ o.addr = a ∧ o.len = n
  dead : ∀ a n, .dead a n ∈ calls ↔
    (a = rangeBeg ∧ rangeBeg < rangeEnd ∨
      ∃ o ∈ objs, rangeBeg ≤ o.addr ∧ o.limit ≤ rangeEnd ∧ o.limit = a) ∧
    DeadSpace objs deadRangeEnd a (a + n) ∧ 0 < n

/-- Both walks over a range are those of the objects. -/
structure RangeWalks (m : ParMarkBitMap) (objs : List Extent)
    (begAddr endAddr rangeBeg rangeEnd deadRangeEnd : Nat) : Prop where
  liveWords : m.liveWordsTo begAddr endAddr = some (begun objs begAddr endAddr)
  iterates : ∃ calls, WalksRange objs rangeBeg rangeEnd deadRangeEnd calls ∧
    ∀ {σ : Type} (liveClosure deadClosure : Closure σ) (s : σ), NeverOverflows liveClosure →
      Makes (m.iterate liveClosure deadClosure (m.addrToBit rangeEnd) (m.addrToBit deadRangeEnd)
        (m.addrToBit rangeBeg) s) s liveClosure deadClosure calls

/-- The closures that record their calls. -/
def recordLive : Closure (List ClosureCall) := fun addr size s =>
  (.incomplete, s ++ [.live addr size])

def recordDead : Closure (List ClosureCall) := fun addr size s =>
  (.incomplete, s ++ [.dead addr size])

theorem foldl_record (calls s : List ClosureCall) :
    calls.foldl (ClosureCall.run recordLive recordDead) s = s ++ calls := by
  induction calls generalizing s with
  | nil => exact (List.append_nil s).symm
  | cons c calls ih =>
    rw [List.foldl_cons, ih]
    cases c <;> simp [ClosureCall.run, recordLive, recordDead]

theorem Makes.calls_eq {result : Option (Iteration (List ClosureCall))}
    {calls calls' : List ClosureCall}
    (h : Makes result [] recordLive recordDead calls)
    (h' : Makes result [] recordLive recordDead calls') : calls = calls' := by
  obtain ⟨r, hr, -, hstate⟩ := h
  obtain ⟨r', hr', -, hstate'⟩ := h'
  rw [hr, Option.some_inj] at hr'
  rw [← hr', hstate, foldl_record, foldl_record] at hstate'
  exact hstate'

/-- The walks are exact unless an object within the range ends where the dead range does, within
a word of the bitmap and with no object behind it. -/
theorem rangeWalks_iff (hmarks : m.Marks size objs) (hapart : objs.Pairwise Apart)
    (hin : ∀ o ∈ objs, InHeap m size o) (begAddr endAddr rangeBeg rangeEnd deadRangeEnd : Nat)
    (hbegAddr : m.regionStart ≤ begAddr) (hendAddr : begAddr ≤ endAddr)
    (hbeg : m.regionStart ≤ rangeBeg) (hle : rangeBeg ≤ rangeEnd) (hrange : rangeEnd ≤ deadRangeEnd)
    (hcut : ∀ o ∈ objs, o.limit ≤ rangeBeg ∨ rangeBeg ≤ o.addr) :
    RangeWalks m objs begAddr endAddr rangeBeg rangeEnd deadRangeEnd ↔
      ¬∃ o ∈ objs, rangeBeg ≤ o.addr ∧ o.limit ≤ rangeEnd ∧ CutOff m objs deadRangeEnd o.limit := by
  obtain ⟨calls, hordered, hlive, hdead, hmakes⟩ :=
    iterate_calls hmarks hapart hin (hbeg.trans hle) hrange hbeg hle hcut
  constructor
  · rintro ⟨-, calls', hwalks, hmakes'⟩ ⟨o, ho, hge, hlimit, hcutoff⟩
    obtain rfl := (hmakes' recordLive recordDead [] fun _ _ _ => rfl).calls_eq
      (hmakes recordLive recordDead [] fun _ _ _ => rfl)
    have hspace : DeadSpace objs deadRangeEnd o.limit (o.limit + 0) := by
      refine ⟨Nat.le_refl _, by omega, fun o' ho' => ?_, Or.inl hcutoff.1⟩
      by_cases hsame : o = o'
      · exact Or.inl (hsame ▸ Nat.le_refl _)
      · have := apart_of_mem hapart ho ho' hsame
        simp only [Apart, limit] at *
        omega
    have hcall := (hdead o.limit 0).mpr ⟨Or.inr ⟨o, ho, hge, hlimit, rfl⟩, hspace, Or.inr hcutoff⟩
    exact Nat.lt_irrefl 0 ((hwalks.dead _ _).mp hcall).2.2
  · intro hnone
    refine ⟨liveWordsTo_eq hmarks hapart hin hbegAddr hendAddr, calls,
      ⟨hordered, hlive, fun a n => ?_⟩, hmakes⟩
    rw [hdead]
    constructor
    · rintro ⟨hbegins, hspace, hsize⟩
      refine ⟨hbegins, hspace, hsize.resolve_right fun hcutoff => ?_⟩
      rcases hbegins with ⟨rfl, hlt⟩ | ⟨o, ho, hge, hlimit, rfl⟩
      · have := hcutoff.1
        omega
      · exact hnone ⟨o, ho, hge, hlimit, hcutoff⟩
    · rintro ⟨hbegins, hspace, hpos⟩
      exact ⟨hbegins, hspace, Or.inl hpos⟩

/-- A heap of 64 words with one object of four words, which the range and the dead range end
with: the closure for dead space is called behind it, for no words. -/
theorem iterate_emptyDeadSpace :
    let objs : List Extent := [⟨0, 4⟩]
    ¬RangeWalks ((unmarked 0 64).markAll objs) objs 0 4 0 4 4 := by
  intro objs hwalks
  obtain ⟨calls, hcalls, hmakes⟩ := hwalks.iterates
  obtain ⟨r, hr, -, hstate⟩ := hmakes recordLive recordDead [] fun _ _ _ => rfl
  have hrun : (((unmarked 0 64).markAll objs).iterate recordLive recordDead 4 4 0 []).map
      (·.state) = some [.live 0 4, .dead 4 0] := by decide
  have hall : calls = [.live 0 4, .dead 4 0] := by
    rw [foldl_record, List.nil_append] at hstate
    have hmap := congrArg (Option.map Iteration.state) hr
    rw [Option.map_some, hstate] at hmap
    exact Option.some_inj.mp (hmap.symm.trans hrun)
  have hdead := (hcalls.dead 4 0).mp (by rw [hall]; decide)
  exact Nat.lt_irrefl 0 hdead.2.2

/-- Three objects in a heap of 128 words, the last across a word of the bitmap; the range ends
within it, and the dead range ends with the heap. -/
theorem rangeWalks_three_objects :
    let objs : List Extent := [⟨0, 4⟩, ⟨6, 2⟩, ⟨60, 10⟩]
    RangeWalks ((unmarked 0 128).markAll objs) objs 0 60 4 64 128 := by
  intro objs
  have hin : ∀ o ∈ objs, InHeap (unmarked 0 128) 128 o := by
    simp [objs, InHeap, unmarked, limit]
  have hapart : objs.Pairwise Apart := by
    simp [objs, Apart, limit]
  obtain ⟨hmarks, hstart⟩ :=
    (marks_unmarked 0 128).markAll (by simpa using hapart) (by simpa using hin)
  refine (rangeWalks_iff (hmarks.perm (by simp)) hapart
    (fun o ho => (hin o ho).congr hstart) 0 60 4 64 128 ?_ (by decide) ?_ (by decide) (by decide)
    ?_).mpr ?_
  · rw [hstart]
    exact Nat.zero_le _
  · rw [hstart]
    exact Nat.zero_le _
  · decide
  · rintro ⟨o, ho, -, hlimit, hcutoff⟩
    have := hcutoff.1
    omega

end ParMarkBitMap

end HotSpot
