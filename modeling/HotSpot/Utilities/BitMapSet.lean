import Mathlib.Data.Finset.Sort
import Mathlib.Order.Interval.Finset.Nat
import HotSpot.Utilities.BitMapSearch

/-! # Bitmaps as sets of indices

A family of bitmaps of one size, changed by any sequence of calls, refines a family of
sets of indices below the size: the calls return the same flags, and every query
agrees with the set.
-/

namespace HotSpot.BitMap

/-! ## Calls -/

/-- The calls that change a bitmap. `ι` names the bitmaps. -/
inductive Op (ι : Type*) where
  | setBit (bit : Nat)
  | clearBit (bit : Nat)
  | setRange (beg end_ : Nat)
  | clearRange (beg end_ : Nat)
  | setRangeHint (beg end_ : Nat) (hint : RangeSizeHint)
  | clearRangeHint (beg end_ : Nat) (hint : RangeSizeHint)
  | setUnion (other : ι)
  | setDifference (other : ι)
  | setIntersection (other : ι)
  | setUnionWithResult (other : ι)
  | setDifferenceWithResult (other : ι)
  | setIntersectionWithResult (other : ι)

variable {ι : Type*}

/-- What `verify_range` and the callers promise about a range. The large variants are for
ranges with full words, of which they assert that there are at least 32. -/
def ValidRange (size beg end_ : Nat) (hint : RangeSizeHint) : Prop :=
  beg ≤ end_ ∧ end_ ≤ size ∧ (hint = .largeRange → (beg + 63) / 64 ≤ end_ / 64)

/-- The arguments are in bounds. -/
def Op.Valid (size : Nat) : Op ι → Prop
  | .setBit bit => bit < size
  | .clearBit bit => bit < size
  | .setRange beg end_ => ValidRange size beg end_ .unknownRange
  | .clearRange beg end_ => ValidRange size beg end_ .unknownRange
  | .setRangeHint beg end_ hint => ValidRange size beg end_ hint
  | .clearRangeHint beg end_ hint => ValidRange size beg end_ hint
  | .setUnion _ => True
  | .setDifference _ => True
  | .setIntersection _ => True
  | .setUnionWithResult _ => True
  | .setDifferenceWithResult _ => True
  | .setIntersectionWithResult _ => True

/-- A call on a bitmap of a family; the forms with a result return a flag. -/
def Op.call (maps : ι → BitMap) (b : BitMap) : Op ι → BitMap × Option Bool
  | .setBit bit => (b.setBit bit, none)
  | .clearBit bit => (b.clearBit bit, none)
  | .setRange beg end_ => (BitMap.setRange b beg end_, none)
  | .clearRange beg end_ => (BitMap.clearRange b beg end_, none)
  | .setRangeHint beg end_ hint => (b.setRangeHint beg end_ hint, none)
  | .clearRangeHint beg end_ hint => (b.clearRangeHint beg end_ hint, none)
  | .setUnion other => (b.setUnion (maps other), none)
  | .setDifference other => (b.setDifference (maps other), none)
  | .setIntersection other => (b.setIntersection (maps other), none)
  | .setUnionWithResult other => (b.setUnionWithResult (maps other)).map id some
  | .setDifferenceWithResult other => (b.setDifferenceWithResult (maps other)).map id some
  | .setIntersectionWithResult other => (b.setIntersectionWithResult (maps other)).map id some

/-- The call on sets of indices. -/
def Op.onSet (sets : ι → Finset Nat) (S : Finset Nat) : Op ι → Finset Nat × Option Bool
  | .setBit bit => (insert bit S, none)
  | .clearBit bit => (S.erase bit, none)
  | .setRange beg end_ => (S ∪ Finset.Ico beg end_, none)
  | .clearRange beg end_ => (S \ Finset.Ico beg end_, none)
  | .setRangeHint beg end_ _ => (S ∪ Finset.Ico beg end_, none)
  | .clearRangeHint beg end_ _ => (S \ Finset.Ico beg end_, none)
  | .setUnion other => (S ∪ sets other, none)
  | .setDifference other => (S \ sets other, none)
  | .setIntersection other => (S ∩ sets other, none)
  | .setUnionWithResult other => (S ∪ sets other, some (decide (S ∪ sets other ≠ S)))
  | .setDifferenceWithResult other => (S \ sets other, some (decide (S \ sets other ≠ S)))
  | .setIntersectionWithResult other => (S ∩ sets other, some (decide (S ∩ sets other ≠ S)))

section Run

variable [DecidableEq ι] {α : Type*}

/-- Makes the calls in order; collects what they return. -/
def run (call : (ι → α) → α → Op ι → α × Option Bool) :
    List (ι × Op ι) → (ι → α) → (ι → α) × List (Option Bool)
  | [], state => (state, [])
  | (k, op) :: rest, state =>
    let (value, flag) := call state (state k) op
    let (state, flags) := run call rest (Function.update state k value)
    (state, flag :: flags)

end Run

/-! ## Refinement -/

/-- A bitmap of `size` bits that holds a set of indices. -/
structure Refines (size : Nat) (b : BitMap) (S : Finset Nat) : Prop where
  size_eq : b.size = size
  words : b.map.size = b.sizeInWords
  bit : ∀ i, b.bit i = decide (i ∈ S)
  below : ∀ i ∈ S, i < size

namespace Refines

variable {size : Nat} {b c b' : BitMap} {S T S' : Finset Nat}

theorem wellFormed (h : Refines size b S) : b.WellFormed where
  words := h.words
  clear i hi := by
    rw [h.bit, decide_eq_false_iff_not]
    intro hmem
    have := h.below i hmem
    rw [h.size_eq] at hi
    omega

theorem word_lt (h : Refines size b S) {i : Nat} (hi : i < size) : i / 64 < b.map.size :=
  h.wellFormed.word_lt (h.size_eq ▸ hi)

/-- The constructor makes an empty set, whatever was in the memory. -/
theorem new (memory : Nat → BmWord) (size : Nat) : Refines size (BitMap.new memory size) ∅ := by
  simp only [BitMap.new, clearRangeOfWords]
  obtain ⟨hsize, hmap, hword⟩ := updateWords_spec (fun _ _ => 0#64) 0
    ((BitMap.mk (Array.ofFn fun i : Fin (wordIndex (size + bitsPerWord - 1)) => memory i)
      size).sizeInWords - 0)
    ⟨Array.ofFn fun i : Fin (wordIndex (size + bitsPerWord - 1)) => memory i, size⟩
  refine ⟨hsize, ?_, ?_, by simp⟩
  · rw [hmap, Array.size_ofFn, sizeInWords, hsize]
  · intro i
    rw [BitMap.bit, hword, Array.size_ofFn]
    split
    next hin => simp
    next hout =>
      -- beyond the last word nothing is read
      have hge : wordIndex (size + bitsPerWord - 1) ≤ i / 64 := by
        simp only [sizeInWords] at hout
        omega
      rw [word, Array.getD_eq_getD_getElem?, Array.getElem?_eq_none (by rwa [Array.size_ofFn])]
      simp

/-- Setting a range adds it. -/
theorem of_puts_true {beg end_ : Nat} (h : Refines size b S) (hputs : Puts true b beg end_ b')
    (hend : end_ ≤ size) : Refines size b' (S ∪ Finset.Ico beg end_) where
  size_eq := hputs.size.trans h.size_eq
  words := (hputs.wellFormed h.wellFormed (h.size_eq ▸ hend)).words
  bit i := by
    rw [hputs.bit, h.bit]
    simp only [Finset.mem_union, Finset.mem_Ico]
    split
    next hin => simp [hin]
    next hout => simp [hout]
  below i hi := by
    rw [Finset.mem_union, Finset.mem_Ico] at hi
    rcases hi with hi | hi
    · exact h.below i hi
    · omega

/-- Clearing a range removes it. -/
theorem of_puts_false {beg end_ : Nat} (h : Refines size b S) (hputs : Puts false b beg end_ b')
    (hend : end_ ≤ size) : Refines size b' (S \ Finset.Ico beg end_) where
  size_eq := hputs.size.trans h.size_eq
  words := (hputs.wellFormed h.wellFormed (h.size_eq ▸ hend)).words
  bit i := by
    rw [hputs.bit, h.bit]
    simp only [Finset.mem_sdiff, Finset.mem_Ico]
    split
    next hin => simp [hin]
    next hout => simp [hout]
  below i hi := h.below i (Finset.mem_sdiff.mp hi).1

/-- Words are equal when the sets agree on their bits. -/
theorem allWords_iff_forall (h : Refines size b S) {test : Nat → Bool} {p : Nat → Prop}
    (htest : ∀ j, test j = true ↔ ∀ i, i / 64 = j → p i) (hout : ∀ i, size ≤ i → p i) :
    allWords test 0 b.sizeInWords = true ↔ ∀ i, p i := by
  have hwords := b.sizeInWords_eq
  rw [h.size_eq] at hwords
  rw [allWords_iff]
  constructor
  · intro hall i
    by_cases hi : i < size
    · exact (htest (i / 64)).mp (hall _ (Nat.zero_le _) (by omega)) i rfl
    · exact hout i (by omega)
  · intro hall j _ _
    exact (htest j).mpr fun i _ => hall i

theorem word_eq_iff {v w : BmWord} (j : Nat) :
    (v == w) = true ↔ ∀ i, i / 64 = j → v.getLsbD (i % 64) = w.getLsbD (i % 64) := by
  rw [beq_iff_eq]
  constructor
  · rintro rfl i _
    rfl
  · intro h
    apply BitVec.eq_of_getLsbD_eq
    intro k hk
    have := h (j * 64 + k) (by omega)
    rwa [show (j * 64 + k) % 64 = k by omega] at this

section SetOperations

variable (f : Nat → BmWord → BmWord)

/-- A change of all words by a bitwise operation. -/
theorem of_updateWords (h : Refines size b S)
    (hf : ∀ i, (f (i / 64) (b.word (i / 64))).getLsbD (i % 64) = decide (i ∈ S'))
    (hbelow : ∀ i ∈ S', i < size) : Refines size (updateWords f 0 b.sizeInWords b) S' := by
  obtain ⟨hsize, hmap, -⟩ := updateWords_spec f 0 b.sizeInWords b
  refine ⟨hsize.trans h.size_eq, ?_, ?_, hbelow⟩
  · rw [hmap, h.words]
    exact (congrArg (fun n => wordIndex (n + bitsPerWord - 1)) hsize).symm
  · intro i
    rw [bit_updateWords]
    split
    next => exact hf i
    next hout =>
      have hge : ¬ i < size := by
        intro hi
        have := h.word_lt hi
        have := h.words
        omega
      have hS : i ∉ S := fun hi => hge (h.below i hi)
      have hS' : i ∉ S' := fun hi => hge (hbelow i hi)
      rw [h.bit]
      simp [hS, hS']

/-- The flag says whether the set has changed. -/
theorem updateWordsWithResult_eq (h : Refines size b S)
    (hf : ∀ i, (f (i / 64) (b.word (i / 64))).getLsbD (i % 64) = decide (i ∈ S'))
    (hbelow : ∀ i ∈ S', i < size) :
    updateWordsWithResult f 0 b.sizeInWords b false =
      (updateWords f 0 b.sizeInWords b, decide (S' ≠ S)) := by
  have hsame : allWords (fun i => f i (b.word i) == b.word i) 0 b.sizeInWords = true ↔
      ∀ i, i ∈ S' ↔ i ∈ S := by
    apply h.allWords_iff_forall
    · intro j
      rw [word_eq_iff j]
      constructor
      · rintro hall i rfl
        have := hall i rfl
        rw [hf, ← BitMap.bit, h.bit] at this
        simpa using this
      · rintro hall i rfl
        rw [hf, ← BitMap.bit, h.bit]
        simpa using hall i rfl
    · intro i hi
      have hS : i ∉ S := fun hmem => absurd (h.below i hmem) (by omega)
      have hS' : i ∉ S' := fun hmem => absurd (hbelow i hmem) (by omega)
      simp [hS, hS']
  rw [← Finset.ext_iff] at hsame
  rw [updateWordsWithResult_spec, Bool.false_or]
  congr 1
  rw [Bool.eq_iff_iff, decide_eq_true_iff, ne_eq, ← hsame]
  simp

variable (h : Refines size b S) (hc : Refines size c T)

include h hc

theorem union_bit (i : Nat) :
    (b.word (i / 64) ||| c.word (i / 64)).getLsbD (i % 64) = decide (i ∈ S ∪ T) := by
  rw [BitVec.getLsbD_or, ← BitMap.bit, ← BitMap.bit, h.bit, hc.bit]
  simp

theorem difference_bit (i : Nat) :
    (b.word (i / 64) &&& ~~~c.word (i / 64)).getLsbD (i % 64) = decide (i ∈ S \ T) := by
  have hlt : i % 64 < 64 := Nat.mod_lt _ (by decide)
  rw [BitVec.getLsbD_and, BitVec.getLsbD_not, ← BitMap.bit, ← BitMap.bit, h.bit, hc.bit]
  simp [hlt]

theorem intersection_bit (i : Nat) :
    (b.word (i / 64) &&& c.word (i / 64)).getLsbD (i % 64) = decide (i ∈ S ∩ T) := by
  rw [BitVec.getLsbD_and, ← BitMap.bit, ← BitMap.bit, h.bit, hc.bit]
  simp

theorem union_below : ∀ i ∈ S ∪ T, i < size := by
  intro i hi
  rcases Finset.mem_union.mp hi with hS | hT
  · exact h.below i hS
  · exact hc.below i hT

theorem setUnion : Refines size (b.setUnion c) (S ∪ T) :=
  h.of_updateWords _ (h.union_bit hc) (h.union_below hc)

theorem setDifference : Refines size (b.setDifference c) (S \ T) :=
  h.of_updateWords _ (h.difference_bit hc) fun i hi => h.below i (Finset.mem_sdiff.mp hi).1

theorem setIntersection : Refines size (b.setIntersection c) (S ∩ T) :=
  h.of_updateWords _ (h.intersection_bit hc) fun i hi => h.below i (Finset.mem_inter.mp hi).1

theorem setUnionWithResult_eq :
    b.setUnionWithResult c = (b.setUnion c, decide (S ∪ T ≠ S)) :=
  h.updateWordsWithResult_eq _ (h.union_bit hc) (h.union_below hc)

theorem setDifferenceWithResult_eq :
    b.setDifferenceWithResult c = (b.setDifference c, decide (S \ T ≠ S)) :=
  h.updateWordsWithResult_eq _ (h.difference_bit hc) fun i hi =>
    h.below i (Finset.mem_sdiff.mp hi).1

theorem setIntersectionWithResult_eq :
    b.setIntersectionWithResult c = (b.setIntersection c, decide (S ∩ T ≠ S)) :=
  h.updateWordsWithResult_eq _ (h.intersection_bit hc) fun i hi =>
    h.below i (Finset.mem_inter.mp hi).1

end SetOperations

/-- The range operations with a hint. -/
theorem setRangeHint (h : Refines size b S) {beg end_ : Nat} {hint : RangeSizeHint}
    (hvalid : ValidRange size beg end_ hint) :
    Refines size (b.setRangeHint beg end_ hint) (S ∪ Finset.Ico beg end_) := by
  obtain ⟨hle, hend, hlarge⟩ := hvalid
  have hbound : end_ ≤ b.size := h.size_eq ▸ hend
  rw [BitMap.setRangeHint]
  split
  next hone =>
    have hputs := setBit_puts (h.word_lt (i := beg) (by omega))
    rw [show beg + 1 = end_ by omega] at hputs
    exact h.of_puts_true hputs hend
  next =>
    split
    next hhint =>
      exact h.of_puts_true
        (setLargeRange_parts.putLargeRange_puts h.wellFormed hbound (hlarge hhint)) hend
    next =>
      exact h.of_puts_true (setRange_parts.putRange_puts h.wellFormed hle hbound) hend

theorem clearRangeHint (h : Refines size b S) {beg end_ : Nat} {hint : RangeSizeHint}
    (hvalid : ValidRange size beg end_ hint) :
    Refines size (b.clearRangeHint beg end_ hint) (S \ Finset.Ico beg end_) := by
  obtain ⟨hle, hend, hlarge⟩ := hvalid
  have hbound : end_ ≤ b.size := h.size_eq ▸ hend
  rw [BitMap.clearRangeHint]
  split
  next hone =>
    have hputs := clearBit_puts (h.word_lt (i := beg) (by omega))
    rw [show beg + 1 = end_ by omega] at hputs
    exact h.of_puts_false hputs hend
  next =>
    split
    next hhint =>
      exact h.of_puts_false
        (clearLargeRange_parts.putLargeRange_puts h.wellFormed hbound (hlarge hhint)) hend
    next =>
      exact h.of_puts_false (clearRange_parts.putRange_puts h.wellFormed hle hbound) hend

/-- One call: the set that results, and the flag. -/
theorem call {maps : ι → BitMap} {sets : ι → Finset Nat}
    (hfamily : ∀ k, Refines size (maps k) (sets k)) (h : Refines size b S) {op : Op ι}
    (hvalid : op.Valid size) :
    Refines size (op.call maps b).1 (op.onSet sets S).1 ∧
      (op.call maps b).2 = (op.onSet sets S).2 := by
  cases op with
  | setBit bit =>
    have hputs := h.of_puts_true (setBit_puts (h.word_lt hvalid)) hvalid
    rw [Nat.Ico_succ_singleton, Finset.union_comm, ← Finset.insert_eq] at hputs
    exact ⟨hputs, rfl⟩
  | clearBit bit =>
    have hputs := h.of_puts_false (clearBit_puts (h.word_lt hvalid)) hvalid
    rw [Nat.Ico_succ_singleton, Finset.sdiff_singleton_eq_erase] at hputs
    exact ⟨hputs, rfl⟩
  | setRange beg end_ => exact ⟨h.setRangeHint hvalid, rfl⟩
  | clearRange beg end_ => exact ⟨h.clearRangeHint hvalid, rfl⟩
  | setRangeHint beg end_ hint => exact ⟨h.setRangeHint hvalid, rfl⟩
  | clearRangeHint beg end_ hint => exact ⟨h.clearRangeHint hvalid, rfl⟩
  | setUnion other => exact ⟨h.setUnion (hfamily other), rfl⟩
  | setDifference other => exact ⟨h.setDifference (hfamily other), rfl⟩
  | setIntersection other => exact ⟨h.setIntersection (hfamily other), rfl⟩
  | setUnionWithResult other =>
    rw [Op.call, h.setUnionWithResult_eq (hfamily other)]
    exact ⟨h.setUnion (hfamily other), rfl⟩
  | setDifferenceWithResult other =>
    rw [Op.call, h.setDifferenceWithResult_eq (hfamily other)]
    exact ⟨h.setDifference (hfamily other), rfl⟩
  | setIntersectionWithResult other =>
    rw [Op.call, h.setIntersectionWithResult_eq (hfamily other)]
    exact ⟨h.setIntersection (hfamily other), rfl⟩

end Refines

/-- Any sequence of calls. -/
theorem run_refines [DecidableEq ι] {size : Nat} {calls : List (ι × Op ι)}
    (hvalid : ∀ c ∈ calls, c.2.Valid size) {maps : ι → BitMap} {sets : ι → Finset Nat}
    (hfamily : ∀ k, Refines size (maps k) (sets k)) :
    (∀ k, Refines size ((run Op.call calls maps).1 k) ((run Op.onSet calls sets).1 k)) ∧
      (run Op.call calls maps).2 = (run Op.onSet calls sets).2 := by
  induction calls generalizing maps sets with
  | nil => exact ⟨hfamily, rfl⟩
  | cons c rest ih =>
    obtain ⟨k, op⟩ := c
    obtain ⟨hcall, hflag⟩ := Refines.call hfamily (hfamily k) (hvalid (k, op) (by simp))
    have hnext : ∀ j, Refines size (Function.update maps k (op.call maps (maps k)).1 j)
        (Function.update sets k (op.onSet sets (sets k)).1 j) := by
      intro j
      by_cases hj : j = k
      · subst hj
        rw [Function.update_self, Function.update_self]
        exact hcall
      · rw [Function.update_of_ne hj, Function.update_of_ne hj]
        exact hfamily j
    obtain ⟨hrest, hflags⟩ := ih (fun c hc => hvalid c (List.mem_cons_of_mem _ hc)) hnext
    exact ⟨hrest, congrArg₂ _ hflag hflags⟩

/-! ## Queries -/

/-- The queries of a family of bitmaps agree with the sets. -/
structure Observes (size : Nat) (maps : ι → BitMap) (sets : ι → Finset Nat) : Prop where
  below : ∀ k, sets k ⊆ Finset.range size
  at_eq : ∀ k, ∀ i < size, (maps k).at_ i = decide (i ∈ sets k)
  nextOne : ∀ k l r, l ≤ r → r ≤ size →
    (maps k).getNextOneOffset l r = nextWhere (fun i => decide (i ∈ sets k)) l r
  nextZero : ∀ k l r, l ≤ r → r ≤ size →
    (maps k).getNextZeroOffset l r = nextWhere (fun i => decide (i ∉ sets k)) l r
  iterate : ∀ k l r, l ≤ r → r ≤ size → ∀ {σ : Type} (doBit : σ → Nat → Bool × σ) (s : σ),
    (maps k).iterate doBit l r s = iterateList doBit (sets k ∩ Finset.Ico l r).sort s
  countOneBits : ∀ k, (maps k).countOneBits = (sets k).card
  isFull : ∀ k, (maps k).isFull = decide (sets k = Finset.range size)
  isEmpty : ∀ k, (maps k).isEmpty = decide (sets k = ∅)
  isSame : ∀ j k, (maps j).isSame (maps k) = decide (sets j = sets k)
  contains : ∀ j k, (maps j).contains (maps k) = decide (sets k ⊆ sets j)
  intersects : ∀ j k, (maps j).intersects (maps k) = decide (sets j ∩ sets k).Nonempty

namespace Refines

variable {size : Nat} {b c : BitMap} {S T : Finset Nat}

theorem setIndices_eq (h : Refines size b S) (l r : Nat) :
    b.setIndices l r = (S ∩ Finset.Ico l r).sort := by
  have hsorted : (b.setIndices l r).Pairwise (· ≤ ·) :=
    (List.pairwise_le_range' 1).filter _
  have hnodup : (b.setIndices l r).Nodup := (List.nodup_range' 1).filter _
  have hmem : (b.setIndices l r).toFinset = S ∩ Finset.Ico l r := by
    ext i
    simp only [setIndices, List.mem_toFinset, List.mem_filter, List.mem_range'_1, h.bit,
      decide_eq_true_iff, Finset.mem_inter, Finset.mem_Ico]
    rw [show l ≤ i ∧ i < l + (r - l) ↔ l ≤ i ∧ i < r by omega]
    exact and_comm
  rw [← hmem]
  exact ((List.toFinset_sort _ hnodup).mpr hsorted).symm

theorem isFull_eq (h : Refines size b S) : b.isFull = decide (S = Finset.range size) := by
  rw [Bool.eq_iff_iff, isFull_iff, decide_eq_true_iff, h.size_eq]
  constructor
  · intro hall
    ext i
    rw [Finset.mem_range]
    constructor
    · exact h.below i
    · intro hi
      have := hall i hi
      rwa [h.bit, decide_eq_true_iff] at this
  · rintro rfl i hi
    rw [h.bit, decide_eq_true_iff, Finset.mem_range]
    exact hi

theorem isEmpty_eq (h : Refines size b S) : b.isEmpty = decide (S = ∅) := by
  rw [Bool.eq_iff_iff, isEmpty_iff, decide_eq_true_iff, h.size_eq,
    Finset.eq_empty_iff_forall_notMem]
  constructor
  · intro hall i hi
    have := hall i (h.below i hi)
    rw [h.bit, decide_eq_false_iff_not] at this
    exact this hi
  · intro hall i _
    rw [h.bit, decide_eq_false_iff_not]
    exact hall i

/-- A word by word comparison, as a comparison of sets. -/
theorem allWords_sets_iff (h : Refines size b S) (hc : Refines size c T)
    {f g : BmWord → BmWord → BmWord} {p q : Bool → Bool → Bool}
    (hf : ∀ v w j, j < 64 → (f v w).getLsbD j = p (v.getLsbD j) (w.getLsbD j))
    (hg : ∀ v w j, j < 64 → (g v w).getLsbD j = q (v.getLsbD j) (w.getLsbD j))
    (hclear : p false false = q false false) :
    allWords (fun i => f (b.word i) (c.word i) == g (b.word i) (c.word i)) 0 b.sizeInWords = true ↔
      ∀ i, p (decide (i ∈ S)) (decide (i ∈ T)) = q (decide (i ∈ S)) (decide (i ∈ T)) := by
  have hbits : ∀ i, ((f (b.word (i / 64)) (c.word (i / 64))).getLsbD (i % 64) =
      (g (b.word (i / 64)) (c.word (i / 64))).getLsbD (i % 64)) ↔
      p (decide (i ∈ S)) (decide (i ∈ T)) = q (decide (i ∈ S)) (decide (i ∈ T)) := by
    intro i
    have hlt : i % 64 < 64 := Nat.mod_lt _ (by decide)
    rw [hf _ _ _ hlt, hg _ _ _ hlt, ← BitMap.bit, ← BitMap.bit, h.bit, hc.bit]
  apply h.allWords_iff_forall
  · intro j
    rw [word_eq_iff j]
    constructor
    · rintro hall i rfl
      exact (hbits i).mp (hall i rfl)
    · rintro hall i rfl
      exact (hbits i).mpr (hall i rfl)
  · intro i hi
    have hS : i ∉ S := fun hmem => absurd (h.below i hmem) (by omega)
    have hT : i ∉ T := fun hmem => absurd (hc.below i hmem) (by omega)
    simpa [hS, hT] using hclear

theorem isSame_eq (h : Refines size b S) (hc : Refines size c T) :
    b.isSame c = decide (S = T) := by
  have hwords := h.allWords_sets_iff hc (f := fun v _ => v) (g := fun _ w => w)
    (p := fun x _ => x) (q := fun _ y => y) (fun _ _ _ _ => rfl) (fun _ _ _ _ => rfl) rfl
  rw [Bool.eq_iff_iff, isSame, hwords, decide_eq_true_iff, Finset.ext_iff]
  simp

theorem contains_eq (h : Refines size b S) (hc : Refines size c T) :
    b.contains c = decide (T ⊆ S) := by
  have hwords := h.allWords_sets_iff hc (f := fun v w => v ||| w) (g := fun v _ => v)
    (p := fun x y => x || y) (q := fun x _ => x) (fun _ _ _ _ => BitVec.getLsbD_or)
    (fun _ _ _ _ => rfl) rfl
  rw [Bool.eq_iff_iff, BitMap.contains, hwords, decide_eq_true_iff, Finset.subset_iff]
  simp

theorem intersects_eq (h : Refines size b S) (hc : Refines size c T) :
    b.intersects c = decide (S ∩ T).Nonempty := by
  have hwords := h.allWords_sets_iff hc (f := fun v w => v &&& w) (g := fun _ _ => 0#64)
    (p := fun x y => x && y) (q := fun _ _ => false) (fun _ _ _ _ => BitVec.getLsbD_and)
    (fun _ _ _ _ => BitVec.getLsbD_zero) rfl
  rw [BitMap.intersects, Bool.eq_iff_iff, Bool.not_eq_true', ← Bool.not_eq_true, hwords,
    decide_eq_true_iff, Finset.nonempty_iff_ne_empty, ne_eq, Finset.eq_empty_iff_forall_notMem]
  simp

end Refines

theorem observes_of_refines {size : Nat} {maps : ι → BitMap} {sets : ι → Finset Nat}
    (hfamily : ∀ k, Refines size (maps k) (sets k)) : Observes size maps sets where
  below k i hi := Finset.mem_range.mpr ((hfamily k).below i hi)
  at_eq k i _ := by rw [BitMap.at_eq, (hfamily k).bit]
  nextOne k l r hle _ := by
    rw [getNextOneOffset_eq _ hle, funext (hfamily k).bit]
  nextZero k l r hle _ := by
    rw [getNextZeroOffset_eq _ hle, funext (hfamily k).bit]
    simp
  iterate k l r hle hr _ doBit s := by
    rw [iterate_eq doBit _ hle ((hfamily k).size_eq ▸ hr), (hfamily k).setIndices_eq]
  countOneBits k := by
    have hrange : sets k ∩ Finset.Ico 0 size = sets k :=
      Finset.inter_eq_left.mpr fun i hi => by simpa using (hfamily k).below i hi
    rw [countOneBits_eq (hfamily k).wellFormed, (hfamily k).size_eq, (hfamily k).setIndices_eq,
      hrange, Finset.length_sort]
  isFull k := (hfamily k).isFull_eq
  isEmpty k := (hfamily k).isEmpty_eq
  isSame j k := (hfamily j).isSame_eq (hfamily k)
  contains j k := (hfamily j).contains_eq (hfamily k)
  intersects j k := (hfamily j).intersects_eq (hfamily k)

/-- Bitmaps of one size are sets of indices: after any sequence of calls from the
constructor on, the flags returned and all queries are those of the sets. -/
theorem run_observes [DecidableEq ι] (memory : ι → Nat → BmWord) (size : Nat)
    (calls : List (ι × Op ι)) (hvalid : ∀ c ∈ calls, c.2.Valid size) :
    (run Op.call calls fun k => BitMap.new (memory k) size).2 =
        (run Op.onSet calls fun _ => ∅).2 ∧
      Observes size (run Op.call calls fun k => BitMap.new (memory k) size).1
        (run Op.onSet calls fun _ => ∅).1 := by
  obtain ⟨hfamily, hflags⟩ := run_refines hvalid fun k => Refines.new (memory k) size
  exact ⟨hflags, observes_of_refines hfamily⟩

theorem run_observes_two_maps :
    (∀ c ∈ [(false, Op.setRange 3 66), (true, Op.setBit 69),
        (true, Op.setUnionWithResult false)], c.2.Valid 70) ∧
      Observes 70
        (run Op.call [(false, Op.setRange 3 66), (true, Op.setBit 69),
          (true, Op.setUnionWithResult false)] fun _ => BitMap.new (fun _ => allBits) 70).1
        (run Op.onSet [(false, Op.setRange 3 66), (true, Op.setBit 69),
          (true, Op.setUnionWithResult false)] fun _ => ∅).1 := by
  have hvalid : ∀ c ∈ [(false, Op.setRange 3 66), (true, Op.setBit 69),
      (true, Op.setUnionWithResult false)], c.2.Valid 70 := by
    simp [Op.Valid, ValidRange]
  exact ⟨hvalid, (run_observes (fun _ _ => allBits) 70 _ hvalid).2⟩

end HotSpot.BitMap
