import Mathlib.Algebra.BigOperators.Intervals
import Mathlib.Algebra.Order.BigOperators.Group.Finset
import Mathlib.Algebra.Order.Group.Nat

/-! # Humongous allocation

An object that is larger than a region gets a run of contiguous empty regions. The search
goes through the regions once, from where the last allocation ended, and once more from
the beginning.
-/

namespace HotSpot

inductive HumongousType where
  | notHumongous
  | startsHumongous
  | continuesHumongous
  deriving DecidableEq, Repr

inductive ZeroFillState where
  | notZeroFilled
  | zeroFilling
  | zeroFilled
  | allocated
  deriving DecidableEq, Repr

/-- A region, with its addresses in words. -/
structure HeapRegion where
  bottom : Nat
  end_ : Nat
  top : Nat
  humongousType : HumongousType
  humongousStartRegion : Option Nat
  zfs : ZeroFillState
  deriving DecidableEq, Repr

namespace HeapRegion

variable (hr : HeapRegion)

def isEmpty : Bool := hr.top == hr.bottom

/-- `capacity() / HeapWordSize` -/
def capacity : Nat := hr.end_ - hr.bottom

/-- `ContiguousSpace::allocate` -/
def allocate (size : Nat) : Option Nat × HeapRegion :=
  if size ≤ hr.end_ - hr.top then (some hr.top, { hr with top := hr.top + size }) else (none, hr)

def setZeroFillAllocated : HeapRegion := { hr with zfs := .allocated }

def setStartsHumongous (this : Nat) : HeapRegion :=
  { hr with humongousType := .startsHumongous, humongousStartRegion := some this }

def addContinuingHumongousRegion (cont : HeapRegion) : HeapRegion :=
  { hr with end_ := cont.end_, top := cont.end_ }

def setContinuesHumongous (start : Nat) : HeapRegion :=
  { hr with humongousType := .continuesHumongous, humongousStartRegion := some start }

end HeapRegion

/-- The regions in the order of their addresses. -/
structure HeapRegionSeq where
  length : Nat
  regions : Nat → HeapRegion
  allocSearchStart : Nat

namespace HeapRegionSeq

variable (seq : HeapRegionSeq)

def update (i : Nat) (hr : HeapRegion) : HeapRegionSeq :=
  { seq with regions := Function.update seq.regions i hr }

/-- The search, with the regions left: where it stops, where the run begins, and its
size. -/
def scan (wordSize : Nat) : Nat → Nat → Nat → Nat → Nat × Nat × Nat
  | 0, cur, first, sumSizes => (cur, first, sumSizes)
  | left + 1, cur, first, sumSizes =>
    if sumSizes < wordSize then
      let curhr := seq.regions cur
      if curhr.isEmpty && (first == cur || (seq.regions (cur - 1)).end_ == curhr.bottom) then
        scan wordSize left (cur + 1) first (sumSizes + curhr.capacity)
      else scan wordSize left (cur + 1) (cur + 1) 0
    else (cur, first, sumSizes)

/-- Mark a region of the run. -/
def markRegion (first : Nat) (seq : HeapRegionSeq) (i : Nat) : HeapRegionSeq :=
  let hr := (seq.regions i).setZeroFillAllocated
  let hr := (hr.allocate hr.capacity).2
  if i = first then seq.update first (hr.setStartsHumongous first)
  else
    let seq := seq.update first ((seq.regions first).addContinuingHumongousRegion hr)
    seq.update i (hr.setContinuesHumongous first)

/-- `HeapRegionSeq::alloc_obj_from_region_index` -/
def allocObjFromRegionIndex (ind wordSize : Nat) : Option Nat × HeapRegionSeq :=
  match seq.scan wordSize (seq.length - ind) ind ind 0 with
  | (cur, first, sumSizes) =>
    if wordSize ≤ sumSizes then
      let seq := { seq with allocSearchStart := cur }
      let seq := (List.range' first (cur - first)).foldl (markRegion first) seq
      let firstHr := seq.regions first
      (some firstHr.bottom, seq.update first { firstHr with top := firstHr.bottom + wordSize })
    else (none, seq)

/-- `HeapRegionSeq::obj_allocate` -/
def objAllocate (wordSize : Nat) : Option Nat × HeapRegionSeq :=
  match seq.allocObjFromRegionIndex seq.allocSearchStart wordSize with
  | (some res, seq) => (some res, seq)
  | (none, seq) => seq.allocObjFromRegionIndex 0 wordSize

/-! ## Runs -/

/-- Contiguous empty regions, from an index up to another. -/
structure EmptyRun (a b : Nat) : Prop where
  lt : a < b
  le : b ≤ seq.length
  empty : ∀ i, a ≤ i → i < b → (seq.regions i).isEmpty = true
  contiguous : ∀ i, a ≤ i → i + 1 < b → (seq.regions i).end_ = (seq.regions (i + 1)).bottom

def runSize (a b : Nat) : Nat := ∑ i ∈ Finset.Ico a b, (seq.regions i).capacity

/-- A run that has room for an object. -/
def Suffices (wordSize a b : Nat) : Prop := seq.EmptyRun a b ∧ wordSize ≤ seq.runSize a b

/-- What a search from `start` takes into its run: an empty region, unless it comes right
after one that was taken and is not contiguous with it. -/
def taken (start : Nat) : Nat → Bool
  | 0 => (seq.regions 0).isEmpty
  | i + 1 => (seq.regions (i + 1)).isEmpty && (decide (i + 1 ≤ start) || !taken start i ||
      (seq.regions i).end_ == (seq.regions (i + 1)).bottom)

/-- An allocation in the regions of a run: no more of them than it takes. -/
structure AllocatedRun (seq' : HeapRegionSeq) (wordSize a b res : Nat) : Prop where
  run : seq.EmptyRun a b
  room : wordSize ≤ seq.runSize a b
  shortest : ∀ c, a ≤ c → c < b → seq.runSize a c < wordSize
  result : res = (seq.regions a).bottom
  starts : seq'.regions a =
    { seq.regions a with
      end_ := (seq.regions (b - 1)).end_
      top := (seq.regions a).bottom + wordSize
      humongousType := .startsHumongous
      humongousStartRegion := some a
      zfs := .allocated }
  continues : ∀ i, a < i → i < b → seq'.regions i =
    { seq.regions i with
      top := (seq.regions i).bottom + (seq.regions i).capacity
      humongousType := .continuesHumongous
      humongousStartRegion := some a
      zfs := .allocated }
  others : ∀ i, i < a ∨ b ≤ i → seq'.regions i = seq.regions i
  length : seq'.length = seq.length

/-- Allocation fails when there is no run with enough room, and only then. -/
structure FindsRun (wordSize : Nat) : Prop where
  null_iff : (seq.objAllocate wordSize).1 = none ↔ ¬ ∃ a b, seq.Suffices wordSize a b
  null_unchanged : (seq.objAllocate wordSize).1 = none → (seq.objAllocate wordSize).2 = seq
  allocated : ∀ res, (seq.objAllocate wordSize).1 = some res →
    ∃ a b, seq.AllocatedRun (seq.objAllocate wordSize).2 wordSize a b res

variable {seq}

/-! ## The search -/

theorem runSize_succ {a b : Nat} (hab : a ≤ b) :
    seq.runSize a (b + 1) = seq.runSize a b + (seq.regions b).capacity :=
  Finset.sum_Ico_succ_top hab _

@[simp] theorem runSize_self (a : Nat) : seq.runSize a a = 0 := by simp [runSize]

theorem runSize_mono {a a' b : Nat} (ha : a ≤ a') : seq.runSize a' b ≤ seq.runSize a b :=
  Finset.sum_le_sum_of_subset (Finset.Ico_subset_Ico_left ha)

theorem taken_succ (start i : Nat) : seq.taken start (i + 1) = true ↔
    (seq.regions (i + 1)).isEmpty = true ∧ (i + 1 ≤ start ∨ seq.taken start i = false ∨
      (seq.regions i).end_ = (seq.regions (i + 1)).bottom) := by
  simp [taken, or_assoc]

theorem taken_start (start : Nat) :
    seq.taken start start = (seq.regions start).isEmpty := by
  cases start with
  | zero => rfl
  | succ start => simp [taken]

/-- Only the first region of a run may fail to be taken. -/
theorem EmptyRun.taken {a b : Nat} (h : seq.EmptyRun a b) {start i : Nat}
    (ha : seq.taken start a = true) (hai : a ≤ i) (hib : i < b) : seq.taken start i = true := by
  obtain ⟨d, rfl⟩ := Nat.exists_eq_add_of_le hai
  cases d with
  | zero => exact ha
  | succ d =>
    exact (taken_succ start (a + d)).mpr ⟨h.empty _ hai hib,
      Or.inr (Or.inr (h.contiguous (a + d) (by omega) hib))⟩

/-- A search that has come up to an index: the run it has, and that it has missed nothing
it could take. -/
structure Scanned (seq : HeapRegionSeq) (wordSize start cur first sumSizes : Nat) : Prop where
  start_le : start ≤ first
  first_le : first ≤ cur
  grows : ∀ i, first ≤ i → i < cur → seq.taken start i = true
  contiguous : ∀ i, first ≤ i → i + 1 < cur →
    (seq.regions i).end_ = (seq.regions (i + 1)).bottom
  size : sumSizes = seq.runSize first cur
  begins : first = start ∨ ∃ i, first = i + 1 ∧ start ≤ i ∧ seq.taken start i = false
  shortest : ∀ c, first ≤ c → c < cur → seq.runSize first c < wordSize
  missed : sumSizes < wordSize → ∀ a b, start ≤ a → b ≤ cur → seq.EmptyRun a b →
    seq.taken start a = true → seq.runSize a b < wordSize

variable {wordSize start cur first sumSizes : Nat}

theorem scanned_start (seq : HeapRegionSeq) (wordSize start : Nat) :
    Scanned seq wordSize start start start 0 where
  start_le := Nat.le_refl _
  first_le := Nat.le_refl _
  grows := fun _ _ _ => by omega
  contiguous := fun _ _ _ => by omega
  size := (runSize_self start).symm
  begins := Or.inl rfl
  shortest := fun _ _ _ => by omega
  missed := fun _ _ _ _ _ hrun => by
    have := hrun.lt
    omega

namespace Scanned

/-- The test of the search is whether it takes the region. -/
theorem test_iff (h : Scanned seq wordSize start cur first sumSizes) :
    ((seq.regions cur).isEmpty && (first == cur ||
      (seq.regions (cur - 1)).end_ == (seq.regions cur).bottom)) = seq.taken start cur := by
  rcases Nat.eq_or_lt_of_le h.first_le with rfl | hlt
  · rcases h.begins with rfl | ⟨i, rfl, -, hi⟩
    · rw [taken_start]
      simp
    · simp [taken, hi]
  · obtain ⟨i, rfl⟩ := Nat.exists_eq_add_of_le' (Nat.pos_of_ne_zero (by omega) : 1 ≤ cur)
    have hi : seq.taken start i = true := h.grows i (by omega) (by omega)
    have hstart := h.start_le
    have hne : (first == i + 1) = false := by simpa using Nat.ne_of_lt hlt
    have hle : decide (i < start) = false := decide_eq_false (by omega)
    simp [taken, hi, hne, hle]

/-- A run whose first region was taken does not begin before the one of the search. -/
theorem first_le_of_taken (h : Scanned seq wordSize start cur first sumSizes) {a b : Nat}
    (ha : start ≤ a) (hb : first < b) (hrun : seq.EmptyRun a b)
    (htaken : seq.taken start a = true) :
    first ≤ a := by
  by_contra hlt
  rcases h.begins with rfl | ⟨i, rfl, -, hi⟩
  · exact hlt ha
  · rw [hrun.taken htaken (Nat.le_of_lt_succ (Nat.lt_of_not_le hlt)) (by omega)] at hi
    cases hi

theorem take (h : Scanned seq wordSize start cur first sumSizes) (hsum : sumSizes < wordSize)
    (htaken : seq.taken start cur = true)
    (htest : first = cur ∨ (seq.regions (cur - 1)).end_ = (seq.regions cur).bottom) :
    Scanned seq wordSize start (cur + 1) first (sumSizes + (seq.regions cur).capacity) where
  start_le := h.start_le
  first_le := h.first_le.trans (Nat.le_succ cur)
  grows := fun i hi hlt => by
    rcases Nat.eq_or_lt_of_le (Nat.le_of_lt_succ hlt) with rfl | hlt
    · exact htaken
    · exact h.grows i hi hlt
  contiguous := fun i hi hlt => by
    rcases Nat.eq_or_lt_of_le (Nat.le_of_lt_succ hlt) with rfl | hlt
    · rcases htest with rfl | htest
      · omega
      · exact htest
    · exact h.contiguous i hi hlt
  size := by rw [runSize_succ h.first_le, h.size]
  begins := h.begins
  shortest := fun c hc hlt => by
    rcases Nat.eq_or_lt_of_le (Nat.le_of_lt_succ hlt) with rfl | hlt
    · exact h.size ▸ hsum
    · exact h.shortest c hc hlt
  missed := fun hsum' a b ha hb hrun hta => by
    rcases Nat.eq_or_lt_of_le hb with rfl | hlt
    · have hfirst := h.first_le_of_taken ha (Nat.lt_succ_of_le h.first_le) hrun hta
      refine (runSize_mono hfirst).trans_lt ?_
      rwa [runSize_succ h.first_le, ← h.size]
    · exact h.missed hsum a b ha (Nat.le_of_lt_succ hlt) hrun hta

theorem reset (h : Scanned seq wordSize start cur first sumSizes) (hsum : sumSizes < wordSize)
    (htaken : seq.taken start cur = false) :
    Scanned seq wordSize start (cur + 1) (cur + 1) 0 where
  start_le := (h.start_le.trans h.first_le).trans (Nat.le_succ cur)
  first_le := Nat.le_refl _
  grows := fun _ _ _ => by omega
  contiguous := fun _ _ _ => by omega
  size := (runSize_self _).symm
  begins := Or.inr ⟨cur, rfl, h.start_le.trans h.first_le, htaken⟩
  shortest := fun _ _ _ => by omega
  missed := fun _ a b ha hb hrun hta => by
    rcases Nat.eq_or_lt_of_le hb with rfl | hlt
    · rw [hrun.taken hta (Nat.le_of_lt_succ hrun.lt) (Nat.lt_succ_self cur)] at htaken
      cases htaken
    · exact h.missed hsum a b ha (Nat.le_of_lt_succ hlt) hrun hta

/-- The search stops with enough room, or at the end. -/
theorem scan (h : Scanned seq wordSize start cur first sumSizes) (left : Nat) :
    ∃ cur' first' sumSizes', seq.scan wordSize left cur first sumSizes = (cur', first', sumSizes') ∧
      Scanned seq wordSize start cur' first' sumSizes' ∧ cur' ≤ cur + left ∧
      (sumSizes' < wordSize → cur' = cur + left) := by
  induction left generalizing cur first sumSizes with
  | zero => exact ⟨cur, first, sumSizes, rfl, h, Nat.le_refl _, fun _ => rfl⟩
  | succ left ih =>
    unfold HeapRegionSeq.scan
    split
    next hsum =>
      simp only [h.test_iff]
      split
      next htaken =>
        have htest := h.test_iff.trans htaken
        rw [Bool.and_eq_true, Bool.or_eq_true, beq_iff_eq, beq_iff_eq] at htest
        obtain ⟨cur', first', sumSizes', hscan, hend, hle, hstop⟩ :=
          ih (h.take hsum htaken htest.2)
        exact ⟨cur', first', sumSizes', hscan, hend, by omega, fun hsum' => by
          rw [hstop hsum']
          omega⟩
      next htaken =>
        obtain ⟨cur', first', sumSizes', hscan, hend, hle, hstop⟩ :=
          ih (h.reset hsum (Bool.not_eq_true _ ▸ htaken))
        exact ⟨cur', first', sumSizes', hscan, hend, by omega, fun hsum' => by
          rw [hstop hsum']
          omega⟩
    next hsum =>
      exact ⟨cur, first, sumSizes, rfl, h, Nat.le_add_right _ _, fun h' => absurd h' hsum⟩

end Scanned

/-! ## Marking a run -/

/-- A region of a run, other than its first, when the run was marked. -/
def continued (seq : HeapRegionSeq) (first i : Nat) : HeapRegion :=
  { seq.regions i with
    top := (seq.regions i).bottom + (seq.regions i).capacity
    humongousType := .continuesHumongous
    humongousStartRegion := some first
    zfs := .allocated }

/-- The first region of a run, marked up to an index. -/
def started (seq : HeapRegionSeq) (first cur : Nat) (top : Nat) : HeapRegion :=
  { seq.regions first with
    end_ := (seq.regions (cur - 1)).end_
    top := top
    humongousType := .startsHumongous
    humongousStartRegion := some first
    zfs := .allocated }

theorem allocate_empty {hr : HeapRegion} (hempty : hr.isEmpty = true) :
    (hr.setZeroFillAllocated.allocate hr.setZeroFillAllocated.capacity).2 =
      { hr with top := hr.bottom + hr.capacity, zfs := .allocated } := by
  have htop : hr.top = hr.bottom := beq_iff_eq.mp hempty
  unfold HeapRegion.allocate HeapRegion.setZeroFillAllocated HeapRegion.capacity
  rw [if_pos (by rw [htop])]
  simp only [htop]

/-- The regions of a run have been marked up to an index. -/
structure Marked (seq seq' : HeapRegionSeq) (first cur : Nat) : Prop where
  starts : ∃ top, seq'.regions first = seq.started first cur top
  continues : ∀ i, first < i → i < cur → seq'.regions i = seq.continued first i
  others : ∀ i, i < first ∨ cur ≤ i → seq'.regions i = seq.regions i
  length : seq'.length = seq.length

theorem marked_first (first : Nat) (hempty : (seq.regions first).isEmpty = true) :
    Marked seq (markRegion first seq first) first (first + 1) := by
  unfold markRegion
  simp only [if_true, allocate_empty hempty]
  refine ⟨⟨(seq.regions first).bottom + (seq.regions first).capacity, ?_⟩, fun i _ _ => by omega,
    fun i hi => ?_, rfl⟩
  · exact Function.update_self ..
  · exact Function.update_of_ne (by omega) ..

theorem Marked.next {seq' : HeapRegionSeq} {first cur : Nat} (h : Marked seq seq' first cur)
    (hlt : first < cur) (hempty : (seq.regions cur).isEmpty = true) :
    Marked seq (markRegion first seq' cur) first (cur + 1) := by
  have hcur : seq'.regions cur = seq.regions cur := h.others cur (Or.inr (Nat.le_refl _))
  obtain ⟨top, hfirst⟩ := h.starts
  unfold markRegion
  simp only [if_neg (Nat.ne_of_gt hlt), hcur, allocate_empty hempty]
  refine ⟨⟨(seq.regions cur).end_, ?_⟩, fun i hi hicur => ?_, fun i hi => ?_, h.length⟩
  · refine (Function.update_of_ne (Nat.ne_of_lt hlt) ..).trans ?_
    refine (Function.update_self ..).trans ?_
    rw [hfirst]
    rfl
  · rcases Nat.eq_or_lt_of_le (Nat.le_of_lt_succ hicur) with rfl | hicur
    · exact Function.update_self ..
    · refine (Function.update_of_ne (Nat.ne_of_lt hicur) ..).trans ?_
      refine (Function.update_of_ne (Nat.ne_of_gt hi) ..).trans ?_
      exact h.continues i hi hicur
  · refine (Function.update_of_ne (by omega) ..).trans ?_
    refine (Function.update_of_ne (by omega) ..).trans ?_
    exact h.others i (by omega)

theorem marked_run (seq : HeapRegionSeq) (first n : Nat)
    (hempty : ∀ i, first ≤ i → i < first + (n + 1) → (seq.regions i).isEmpty = true) :
    Marked seq ((List.range' first (n + 1)).foldl (markRegion first) seq) first
      (first + (n + 1)) := by
  induction n with
  | zero => exact marked_first first (hempty first (Nat.le_refl _) (by omega))
  | succ n ih =>
    rw [List.range'_1_concat, List.foldl_append]
    exact (ih fun i hi hlt => hempty i hi (by omega)).next (by omega)
      (hempty _ (by omega) (by omega))

/-! ## What an allocation does -/

/-- What a search from an index comes to. -/
inductive Searched (seq : HeapRegionSeq) (wordSize start : Nat) :
    Option Nat × HeapRegionSeq → Prop where
  | found {a b res : Nat} {seq' : HeapRegionSeq} (ha : start ≤ a)
      (htaken : seq.taken start a = true) (hrun : seq.AllocatedRun seq' wordSize a b res) :
      Searched seq wordSize start (some res, seq')
  | missed (hmissed : ∀ a b, start ≤ a → seq.taken start a = true →
      ¬ seq.Suffices wordSize a b) : Searched seq wordSize start (none, seq)

theorem searched (seq : HeapRegionSeq) {wordSize : Nat} (hword : 0 < wordSize) (start : Nat) :
    Searched seq wordSize start (seq.allocObjFromRegionIndex start wordSize) := by
  obtain ⟨cur, first, sumSizes, hscan, h, hle, hstop⟩ :=
    (scanned_start seq wordSize start).scan (seq.length - start)
  unfold allocObjFromRegionIndex
  simp only [hscan]
  split
  next hsum =>
    have hlt : first < cur := by
      refine Nat.lt_of_le_of_ne h.first_le fun heq => ?_
      have hsize := h.size
      rw [heq, runSize_self] at hsize
      omega
    have hstart := h.start_le
    obtain ⟨n, rfl⟩ := Nat.exists_eq_add_of_lt hlt
    have hempty : ∀ i, first ≤ i → i < first + (n + 1) → (seq.regions i).isEmpty = true := by
      intro i hi hin
      have htaken := h.grows i hi hin
      cases i with
      | zero => exact htaken
      | succ i => exact ((taken_succ start i).mp htaken).1
    rw [show first + n + 1 - first = n + 1 by omega]
    have hmarked := marked_run { seq with allocSearchStart := first + n + 1 } first n hempty
    refine .found h.start_le (h.grows first (Nat.le_refl _) hlt) (b := first + n + 1) ?_
    obtain ⟨top, hfirst⟩ := hmarked.starts
    refine ⟨⟨hlt, by omega, hempty, h.contiguous⟩, h.size ▸ hsum, h.shortest, ?_, ?_,
      fun i hi hin => ?_, fun i hi => ?_, hmarked.length⟩
    · rw [hfirst]
      rfl
    · refine (Function.update_self ..).trans ?_
      rw [hfirst]
      rfl
    · refine (Function.update_of_ne (Nat.ne_of_gt hi) ..).trans ?_
      exact hmarked.continues i hi hin
    · refine (Function.update_of_ne (by omega) ..).trans ?_
      exact hmarked.others i hi
  next hsum =>
    refine .missed fun a b ha htaken ⟨hrun, hroom⟩ => ?_
    have hb := hrun.le
    have hab := hrun.lt
    have hcur := hstop (Nat.lt_of_not_le hsum)
    exact Nat.not_le_of_lt (h.missed (Nat.lt_of_not_le hsum) a b ha (by omega) hrun htaken) hroom

/-- The search takes the first region of a run, from where the last allocation ended or
from the beginning. -/
def Seen (seq : HeapRegionSeq) (a : Nat) : Prop :=
  seq.allocSearchStart ≤ a ∧ seq.taken seq.allocSearchStart a = true ∨ seq.taken 0 a = true

theorem objAllocate_spec (seq : HeapRegionSeq) {wordSize : Nat} (hword : 0 < wordSize) :
    (∃ res a b, (seq.objAllocate wordSize).1 = some res ∧ seq.Seen a ∧
      seq.AllocatedRun (seq.objAllocate wordSize).2 wordSize a b res) ∨
    seq.objAllocate wordSize = (none, seq) ∧
      ∀ a b, seq.Seen a → ¬ seq.Suffices wordSize a b := by
  unfold objAllocate
  rcases hfirst : seq.allocObjFromRegionIndex seq.allocSearchStart wordSize with ⟨res, seq'⟩
  have hsearch := hfirst ▸ searched seq hword seq.allocSearchStart
  cases hsearch with
  | found ha htaken hrun => exact Or.inl ⟨_, _, _, rfl, Or.inl ⟨ha, htaken⟩, hrun⟩
  | missed hmissed =>
    rcases hagain : seq.allocObjFromRegionIndex 0 wordSize with ⟨res, seq'⟩
    have hsearch := hagain ▸ searched seq hword 0
    simp only [hagain]
    cases hsearch with
    | found ha htaken hrun => exact Or.inl ⟨_, _, _, rfl, Or.inr htaken, hrun⟩
    | missed hmissed' =>
      refine Or.inr ⟨rfl, fun a b hseen => ?_⟩
      rcases hseen with ⟨ha, htaken⟩ | htaken
      · exact hmissed a b ha htaken
      · exact hmissed' a b (Nat.zero_le _) htaken

theorem findsRun_of_seen {wordSize : Nat} (hword : 0 < wordSize)
    (hseen : (∃ a b, seq.Suffices wordSize a b) → ∃ a b, seq.Suffices wordSize a b ∧ seq.Seen a) :
    seq.FindsRun wordSize := by
  rcases objAllocate_spec seq hword with ⟨res, a, b, hres, -, hrun⟩ | ⟨hnone, hmissed⟩
  · refine ⟨?_, fun hnone => ?_, fun res' hres' => ?_⟩
    · rw [hres]
      exact iff_of_false (by simp) fun hno => hno ⟨a, b, hrun.run, hrun.room⟩
    · rw [hres] at hnone
      cases hnone
    · obtain rfl := Option.some.inj (hres.symm.trans hres')
      exact ⟨a, b, hrun⟩
  · refine ⟨iff_of_true (by rw [hnone]) fun hexists => ?_, fun _ => by rw [hnone],
      fun res hres => ?_⟩
    · obtain ⟨a, b, hsuffices, ha⟩ := hseen hexists
      exact hmissed a b ha hsuffices
    · rw [hnone] at hres
      cases hres

/-- Allocation finds a run exactly when, if there is one with enough room at all, the
search takes the first region of such a run. -/
theorem findsRun_iff (seq : HeapRegionSeq) {wordSize : Nat} (hword : 0 < wordSize) :
    seq.FindsRun wordSize ↔
      ((∃ a b, seq.Suffices wordSize a b) → ∃ a b, seq.Suffices wordSize a b ∧ seq.Seen a) := by
  refine ⟨fun hfinds hexists => ?_, findsRun_of_seen hword⟩
  rcases objAllocate_spec seq hword with ⟨res, a, b, -, ha, hrun⟩ | ⟨hnone, -⟩
  · exact ⟨a, b, ⟨hrun.run, hrun.room⟩, ha⟩
  · exact absurd hexists (hfinds.null_iff.mp (by rw [hnone]))

/-- A region of a size, empty. -/
def emptyRegion (bottom size : Nat) : HeapRegion :=
  ⟨bottom, bottom + size, bottom, .notHumongous, none, .notZeroFilled⟩

/-- Empty regions of one size, with a gap behind the first of them. -/
def gapped : HeapRegionSeq where
  length := 3
  regions
    | 0 => emptyRegion 100 10
    | 1 => emptyRegion 120 10
    | _ => emptyRegion 130 10
  allocSearchStart := 0

theorem suffices_gapped : gapped.Suffices 20 1 3 := by
  refine ⟨⟨by decide, by decide, fun i hi hlt => ?_, fun i hi hlt => ?_⟩, by decide⟩
  · obtain rfl | rfl : i = 1 ∨ i = 2 := by omega
    · rfl
    · rfl
  · obtain rfl : i = 1 := by omega
    rfl

theorem findsRun_gapped : gapped.FindsRun 10 :=
  (findsRun_iff gapped (by decide)).mpr fun _ =>
    ⟨0, 1, ⟨⟨by decide, by decide, fun i _ hlt => by
      obtain rfl : i = 0 := by omega
      rfl, fun _ _ hlt => by omega⟩, by decide⟩, Or.inr rfl⟩

/-- The last two regions are a run for an object of their size, but the search passes
over the one right behind the gap. -/
theorem gapped_not_findsRun :
    gapped.Suffices 20 1 3 ∧ (gapped.objAllocate 20).1 = none ∧ ¬ gapped.FindsRun 20 := by
  have hnone : (gapped.objAllocate 20).1 = none := by decide
  exact ⟨suffices_gapped, hnone, fun hfinds => hfinds.null_iff.mp hnone ⟨1, 3, suffices_gapped⟩⟩

end HeapRegionSeq

end HotSpot
