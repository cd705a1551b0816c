import HotSpot.Utilities.BitMap

/-! # The bits of a bitmap

What each operation on the words of a bitmap does to its bits.
-/

namespace HotSpot.BitMap

/-- The bit at an index, of any word. -/
def bit (b : BitMap) (i : Nat) : Bool := (b.word (i / 64)).getLsbD (i % 64)

/-- A bitmap has the words for its bits, and the other bits of the last word are clear. -/
structure WellFormed (b : BitMap) : Prop where
  words : b.map.size = b.sizeInWords
  clear : ∀ i, b.size ≤ i → b.bit i = false

/-! ## Indices and masks -/

@[simp] theorem bitInWord_eq (i : Nat) : bitInWord i = i % 64 :=
  Nat.and_two_pow_sub_one_eq_mod i 6

@[simp] theorem wordIndex_eq (i : Nat) : wordIndex i = i / 64 :=
  Nat.shiftRight_eq_div_pow i 6

@[simp] theorem bitIndex_eq (i : Nat) : bitIndex i = i * 64 := Nat.shiftLeft_eq i 6

theorem sizeInWords_eq (b : BitMap) : b.sizeInWords = (b.size + 63) / 64 := wordIndex_eq _

theorem wordIndexRoundUp_eq (b : BitMap) (i : Nat) : b.wordIndexRoundUp i = (i + 63) / 64 := by
  rw [wordIndexRoundUp, if_pos (by simp [bitsPerWord]), wordIndex_eq]
  rfl

theorem getLsbD_bitMask (i j : Nat) : (bitMask i).getLsbD j = decide (j = i % 64) := by
  have hlt : i % 64 < 64 := Nat.mod_lt _ (by decide)
  rw [bitMask, bitInWord_eq, ← BitVec.twoPow_eq, BitVec.getLsbD_twoPow]
  simp [hlt, eq_comm]

/-- The bits below a position. -/
theorem getLsbD_low {k j : Nat} (hk : k < 64) :
    ((1#64 <<< k) - 1#64).getLsbD j = decide (j < k) := by
  have hpow : 2 ^ k < 2 ^ 64 := Nat.pow_lt_pow_right (by decide) hk
  have hpos : 0 < 2 ^ k := Nat.two_pow_pos k
  have hnat : ((1#64 <<< k) - 1#64).toNat = 2 ^ k - 1 := by
    rw [← BitVec.twoPow_eq, BitVec.toNat_sub, BitVec.toNat_twoPow, Nat.mod_eq_of_lt hpow]
    simp only [BitVec.toNat_ofNat]
    omega
  rw [← BitVec.testBit_toNat, hnat, Nat.testBit_two_pow_sub_one]

theorem getLsbD_invertedBitMaskForRange {beg end_ j : Nat} (hj : j < 64) :
    (invertedBitMaskForRange beg end_).getLsbD j =
      decide (j < beg % 64 ∨ (end_ % 64 ≠ 0 ∧ end_ % 64 ≤ j)) := by
  have hbeg : beg % 64 < 64 := Nat.mod_lt _ (by decide)
  have hend : end_ % 64 < 64 := Nat.mod_lt _ (by decide)
  simp only [invertedBitMaskForRange, bitMask, bitInWord_eq]
  split
  next hne =>
    rw [BitVec.getLsbD_or, BitVec.getLsbD_not, getLsbD_low hbeg, getLsbD_low hend]
    rw [decide_eq_true hj, Bool.true_and, ← decide_not, ← Bool.decide_or]
    simp only [Nat.not_lt, ne_eq, hne, not_false_eq_true, true_and]
  next heq =>
    rw [getLsbD_low hbeg]
    simp [not_not.mp heq]

/-! ## Words -/

@[simp] theorem map_size_setWord (b : BitMap) (index : Nat) (val : BmWord) :
    (b.setWord index val).map.size = b.map.size := by
  simp [setWord]

theorem word_setWord (b : BitMap) (index j : Nat) (val : BmWord) :
    (b.setWord index val).word j =
      if j = index ∧ j < b.map.size then val else b.word j := by
  simp only [setWord, word, Array.getD_eq_getD_getElem?, Array.getElem?_setIfInBounds]
  split
  next heq =>
    subst heq
    split
    next hlt => simp [hlt]
    next hge => simp [hge]
  next hne => rw [if_neg (by omega)]

theorem allWords_iff (test : Nat → Bool) (index count : Nat) :
    allWords test index count = true ↔ ∀ i, index ≤ i → i < index + count → test i = true := by
  induction count generalizing index with
  | zero =>
    simp only [allWords, Nat.add_zero, true_iff]
    intro i hle hlt
    omega
  | succ count ih =>
    rw [allWords]
    constructor
    · intro h i hle hlt
      split at h
      next htest =>
        rcases Nat.eq_or_lt_of_le hle with rfl | hgt
        · exact htest
        · exact (ih _).mp h i hgt (by omega)
      next => cases h
    · intro h
      rw [if_pos (h index (Nat.le_refl _) (by omega)), ih]
      intro i hle hlt
      exact h i (by omega) (by omega)

theorem allWords_congr {test test' : Nat → Bool} {index count : Nat}
    (h : ∀ i, index ≤ i → test i = test' i) :
    allWords test index count = allWords test' index count := by
  rw [Bool.eq_iff_iff, allWords_iff, allWords_iff]
  constructor
  · intro hall i hle hlt
    rw [← h i hle]
    exact hall i hle hlt
  · intro hall i hle hlt
    rw [h i hle]
    exact hall i hle hlt

section Update

variable (f : Nat → BmWord → BmWord)

theorem updateWords_spec (index count : Nat) (b : BitMap) :
    (updateWords f index count b).size = b.size ∧
    (updateWords f index count b).map.size = b.map.size ∧
    ∀ j, (updateWords f index count b).word j =
      if index ≤ j ∧ j < index + count ∧ j < b.map.size then f j (b.word j) else b.word j := by
  induction count generalizing index b with
  | zero =>
    refine ⟨rfl, rfl, fun j => ?_⟩
    rw [if_neg (by omega)]
    rfl
  | succ count ih =>
    obtain ⟨hsize, hmap, hword⟩ := ih (index + 1) (b.setWord index (f index (b.word index)))
    refine ⟨hsize, hmap.trans (map_size_setWord _ _ _), fun j => ?_⟩
    rw [updateWords, hword, map_size_setWord, word_setWord]
    by_cases hj : j = index
    · subst hj
      split_ifs <;> first | rfl | omega
    · rw [if_neg (show ¬ (j = index ∧ j < b.map.size) from fun h => hj h.1)]
      split_ifs <;> first | rfl | omega

theorem updateWordsWithResult_spec (index count : Nat) (b : BitMap) (changed : Bool) :
    updateWordsWithResult f index count b changed =
      (updateWords f index count b,
        changed || !allWords (fun i => f i (b.word i) == b.word i) index count) := by
  induction count generalizing index b changed with
  | zero => simp [updateWordsWithResult, updateWords, allWords]
  | succ count ih =>
    -- The later words have not been written yet.
    have hlater : allWords (fun i => f i ((b.setWord index (f index (b.word index))).word i) ==
        (b.setWord index (f index (b.word index))).word i) (index + 1) count =
        allWords (fun i => f i (b.word i) == b.word i) (index + 1) count := by
      apply allWords_congr
      intro i hi
      rw [word_setWord, if_neg (by omega)]
    rw [updateWordsWithResult, updateWords, ih, hlater, allWords]
    cases heq : f index (b.word index) == b.word index <;> simp [bne, heq]

theorem bit_updateWords (index count : Nat) (b : BitMap) (i : Nat) :
    (updateWords f index count b).bit i =
      if index ≤ i / 64 ∧ i / 64 < index + count ∧ i / 64 < b.map.size then
        (f (i / 64) (b.word (i / 64))).getLsbD (i % 64)
      else b.bit i := by
  rw [bit, (updateWords_spec f index count b).2.2]
  split <;> rfl

end Update

theorem bit_setWord (b : BitMap) (index i : Nat) (val : BmWord) :
    (b.setWord index val).bit i =
      if i / 64 = index ∧ i / 64 < b.map.size then val.getLsbD (i % 64) else b.bit i := by
  rw [bit, word_setWord]
  split <;> rfl

/-- The words of a bitmap hold its bits. -/
theorem WellFormed.word_lt {b : BitMap} (h : b.WellFormed) {i : Nat} (hi : i < b.size) :
    i / 64 < b.map.size := by
  rw [h.words, sizeInWords_eq]
  omega

theorem at_eq (b : BitMap) (i : Nat) : b.at_ i = b.bit i := by
  rw [at_, Bool.eq_iff_iff, decide_eq_true_iff, wordIndex_eq, bit]
  constructor
  · intro hne
    by_contra hbit
    apply hne
    apply BitVec.eq_of_getLsbD_eq
    intro j hj
    rw [BitVec.getLsbD_and, getLsbD_bitMask, BitVec.getLsbD_zero]
    by_cases heq : j = i % 64
    · simpa [heq] using hbit
    · simp [heq]
  · intro hbit hzero
    have hclear := congrArg (BitVec.getLsbD · (i % 64)) hzero
    simp only [BitVec.getLsbD_and, getLsbD_bitMask, BitVec.getLsbD_zero, hbit] at hclear
    simp at hclear

/-! ## Ranges -/

/-- The bits of a range have the value `value` in `b'`, and all others are those of `b`. -/
structure Puts (value : Bool) (b : BitMap) (beg end_ : Nat) (b' : BitMap) : Prop where
  size : b'.size = b.size
  map_size : b'.map.size = b.map.size
  bit : ∀ i, b'.bit i = if beg ≤ i ∧ i < end_ then value else b.bit i

namespace Puts

variable {value : Bool} {b b' b'' : BitMap} {beg mid end_ : Nat}

theorem refl (value : Bool) (b : BitMap) (beg : Nat) : Puts value b beg beg b where
  size := rfl
  map_size := rfl
  bit i := by rw [if_neg (by omega)]

/-- Neighbouring ranges are one. -/
theorem trans (hbeg : beg ≤ mid) (hend : mid ≤ end_) (h : Puts value b beg mid b')
    (h' : Puts value b' mid end_ b'') : Puts value b beg end_ b'' where
  size := h'.size.trans h.size
  map_size := h'.map_size.trans h.map_size
  bit i := by
    rw [h'.bit, h.bit]
    split_ifs <;> first | rfl | omega

theorem wellFormed (h : Puts value b beg end_ b') (hb : b.WellFormed) (hend : end_ ≤ b.size) :
    b'.WellFormed where
  words := by rw [h.map_size, hb.words, sizeInWords_eq, sizeInWords_eq, h.size]
  clear i hi := by
    rw [h.size] at hi
    rw [h.bit, if_neg (by omega)]
    exact hb.clear i hi

end Puts

section Range

variable {b : BitMap} {beg end_ : Nat}

/-- A range that begins and ends in one word, which the bitmap has. -/
def WithinWord (b : BitMap) (beg end_ : Nat) : Prop :=
  beg ≤ end_ ∧ (beg < end_ → (end_ - 1) / 64 = beg / 64 ∧ beg / 64 < b.map.size)

/-- The mask of a range selects the bits outside. -/
theorem getLsbD_mask_iff {i : Nat} (hlt : beg < end_) (hword : (end_ - 1) / 64 = beg / 64)
    (hi : i / 64 = beg / 64) :
    (invertedBitMaskForRange beg end_).getLsbD (i % 64) = !decide (beg ≤ i ∧ i < end_) := by
  rw [getLsbD_invertedBitMaskForRange (Nat.mod_lt _ (by decide)), ← decide_not]
  congr 1
  apply propext
  omega

theorem setRangeWithinWord_puts (h : WithinWord b beg end_) :
    Puts true b beg end_ (b.setRangeWithinWord beg end_) := by
  rw [setRangeWithinWord]
  split
  next hne =>
    obtain ⟨hword, hlt⟩ := h.2 (Nat.lt_of_le_of_ne h.1 hne)
    refine ⟨rfl, map_size_setWord _ _ _, fun i => ?_⟩
    rw [wordIndex_eq, bit_setWord]
    split
    next hin =>
      rw [BitVec.getLsbD_or, BitVec.getLsbD_not,
        getLsbD_mask_iff (Nat.lt_of_le_of_ne h.1 hne) hword hin.1, ← hin.1, ← bit]
      split
      next hrange => simp [hrange, Nat.mod_lt]
      next hrange => simp [hrange]
    next hout => rw [if_neg (by omega)]
  next heq =>
    rw [not_not.mp heq]
    exact Puts.refl _ _ _

theorem clearRangeWithinWord_puts (h : WithinWord b beg end_) :
    Puts false b beg end_ (b.clearRangeWithinWord beg end_) := by
  rw [clearRangeWithinWord]
  split
  next hne =>
    obtain ⟨hword, hlt⟩ := h.2 (Nat.lt_of_le_of_ne h.1 hne)
    refine ⟨rfl, map_size_setWord _ _ _, fun i => ?_⟩
    rw [wordIndex_eq, bit_setWord]
    split
    next hin =>
      rw [BitVec.getLsbD_and, getLsbD_mask_iff (Nat.lt_of_le_of_ne h.1 hne) hword hin.1, ← hin.1,
        ← bit]
      split
      next hrange => simp [hrange]
      next hrange => simp [hrange]
    next hout => rw [if_neg (by omega)]
  next heq =>
    rw [not_not.mp heq]
    exact Puts.refl _ _ _

/-- Words that are all set or all clear. -/
theorem updateWords_puts {value : Bool} {w : BmWord} (hw : ∀ j < 64, w.getLsbD j = value)
    (hend : end_ ≤ b.map.size) :
    Puts value b (beg * 64) (end_ * 64) (updateWords (fun _ _ => w) beg (end_ - beg) b) := by
  obtain ⟨hsize, hmap, -⟩ := updateWords_spec (fun _ _ => w) beg (end_ - beg) b
  refine ⟨hsize, hmap, fun i => ?_⟩
  rw [bit_updateWords, hw _ (Nat.mod_lt _ (by decide))]
  split_ifs <;> first | rfl | omega

/-- What a range operation needs of its parts. -/
structure PutsParts (value : Bool) (withinWord ofWords : BitMap → Nat → Nat → BitMap) : Prop where
  withinWord : ∀ b beg end_, WithinWord b beg end_ →
    Puts value b beg end_ (withinWord b beg end_)
  ofWords : ∀ b beg end_, end_ ≤ b.map.size →
    Puts value b (beg * 64) (end_ * 64) (ofWords b beg end_)

theorem setRange_parts : PutsParts true setRangeWithinWord setRangeOfWords where
  withinWord _ _ _ := setRangeWithinWord_puts
  ofWords _ _ _ := updateWords_puts (by decide)

theorem clearRange_parts : PutsParts false clearRangeWithinWord clearRangeOfWords where
  withinWord _ _ _ := clearRangeWithinWord_puts
  ofWords _ _ _ := updateWords_puts (by decide)

theorem setLargeRange_parts : PutsParts true setRangeWithinWord setLargeRangeOfWords where
  withinWord _ _ _ := setRangeWithinWord_puts
  ofWords _ _ _ := updateWords_puts (by decide)

theorem clearLargeRange_parts : PutsParts false clearRangeWithinWord clearLargeRangeOfWords where
  withinWord _ _ _ := clearRangeWithinWord_puts
  ofWords _ _ _ := updateWords_puts (by decide)

namespace PutsParts

variable {value : Bool} {withinWord ofWords : BitMap → Nat → Nat → BitMap}

/-- The full words of a range, with the partial words before and after. -/
theorem putLargeRange_puts (h : PutsParts value withinWord ofWords) (hb : b.WellFormed)
    (hend : end_ ≤ b.size) (hwords : (beg + 63) / 64 ≤ end_ / 64) :
    Puts value b beg end_ (putLargeRange withinWord ofWords b beg end_) := by
  have hsize := hb.words
  rw [sizeInWords_eq] at hsize
  simp only [putLargeRange, wordIndexRoundUp_eq, wordIndex_eq, bitIndex_eq]
  have hfirst := h.withinWord b beg ((beg + 63) / 64 * 64) ⟨by omega, by omega⟩
  have hfull := h.ofWords _ ((beg + 63) / 64) (end_ / 64)
    (show end_ / 64 ≤ (withinWord b beg ((beg + 63) / 64 * 64)).map.size by
      rw [hfirst.map_size]
      omega)
  have hlast := h.withinWord _ (end_ / 64 * 64) end_
    (show WithinWord (ofWords (withinWord b beg ((beg + 63) / 64 * 64)) ((beg + 63) / 64)
        (end_ / 64)) _ _ by
      refine ⟨by omega, fun hlt => ?_⟩
      rw [hfull.map_size, hfirst.map_size]
      omega)
  exact (hfirst.trans (by omega) (by omega) hfull).trans (by omega) (by omega) hlast

theorem putRange_puts (h : PutsParts value withinWord ofWords) (hb : b.WellFormed)
    (hle : beg ≤ end_) (hend : end_ ≤ b.size) :
    Puts value b beg end_ (putRange withinWord ofWords b beg end_) := by
  have hsize := hb.words
  rw [sizeInWords_eq] at hsize
  rw [putRange]
  dsimp only
  split
  next hlt =>
    rw [wordIndexRoundUp_eq, wordIndex_eq] at hlt
    exact h.putLargeRange_puts hb hend (Nat.le_of_lt hlt)
  next hge =>
    simp only [wordIndexRoundUp_eq, wordIndex_eq, bitIndex_eq] at hge ⊢
    have hfirst := h.withinWord b beg (min ((beg + 63) / 64 * 64) end_) ⟨by omega, by omega⟩
    have hlast := h.withinWord _ (min ((beg + 63) / 64 * 64) end_) end_
      (show WithinWord (withinWord b beg (min ((beg + 63) / 64 * 64) end_)) _ _ by
        refine ⟨by omega, fun hlt => ?_⟩
        rw [hfirst.map_size]
        omega)
    exact hfirst.trans (by omega) (by omega) hlast

end PutsParts

theorem setBit_puts {bit : Nat} (hlt : bit / 64 < b.map.size) :
    Puts true b bit (bit + 1) (b.setBit bit) := by
  refine ⟨rfl, map_size_setWord _ _ _, fun i => ?_⟩
  rw [setBit, wordIndex_eq, bit_setWord]
  split
  next hin =>
    rw [BitVec.getLsbD_or, getLsbD_bitMask, ← hin.1, ← BitMap.bit]
    split
    next hrange => simp [show i = bit by omega]
    next hrange => simp [show i % 64 ≠ bit % 64 by omega]
  next hout => rw [if_neg (by rintro ⟨h1, h2⟩; exact hout ⟨by omega, by omega⟩)]

theorem clearBit_puts {bit : Nat} (hlt : bit / 64 < b.map.size) :
    Puts false b bit (bit + 1) (b.clearBit bit) := by
  refine ⟨rfl, map_size_setWord _ _ _, fun i => ?_⟩
  rw [clearBit, wordIndex_eq, bit_setWord]
  split
  next hin =>
    rw [BitVec.getLsbD_and, BitVec.getLsbD_not, getLsbD_bitMask, ← hin.1, ← BitMap.bit]
    split
    next hrange => simp [show i = bit by omega]
    next hrange => simp [show i % 64 ≠ bit % 64 by omega, Nat.mod_lt]
  next hout => rw [if_neg (by rintro ⟨h1, h2⟩; exact hout ⟨by omega, by omega⟩)]

end Range

end HotSpot.BitMap
