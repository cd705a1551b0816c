import HotSpot.Utilities.BitMapBits
import Mathlib

/-! # Growing a bitmap

`resize` copies whole words and clears those that are new. The bits that a shrinking call
leaves in the last word come back when the bitmap grows into that word again.
-/

namespace HotSpot.BitMap

/-- The memory of a call: the words that are allocated, and what reading the old words after
they have been freed gives. -/
structure Allocation where
  fresh : Nat → BmWord
  freed : Nat → BmWord

/-- `size_in_words` with the arithmetic of `idx_t`. -/
def idxSizeInWords (size : Nat) : Nat := wordIndex ((size + bitsPerWord - 1) % 2 ^ 64)

/-- The words of the new map after the copy; the C heap gets the old map back before it. -/
def copiedWord (memory : Allocation) (b : BitMap) (newSizeInWords : Nat) (inResourceArea : Bool)
    (i : Nat) : BmWord :=
  if i < min (idxSizeInWords b.size) newSizeInWords then
    if inResourceArea then b.word i else memory.freed i
  else memory.fresh i

def resize (memory : Allocation) (b : BitMap) (sizeInBits : Nat) (inResourceArea : Bool) : BitMap :=
  let oldSizeInWords := idxSizeInWords b.size
  let newSizeInWords := idxSizeInWords sizeInBits
  let copied := copiedWord memory b newSizeInWords inResourceArea
  let b : BitMap := ⟨Array.ofFn fun i : Fin newSizeInWords => copied i, sizeInBits⟩
  if oldSizeInWords < newSizeInWords then b.clearRangeOfWords oldSizeInWords (idxSizeInWords b.size)
  else b

def atPut (b : BitMap) (offset : Nat) (value : Bool) : BitMap :=
  if value then b.setBit offset else b.clearBit offset

def atPutGrow (memory : Allocation) (b : BitMap) (offset : Nat) (value : Bool) : BitMap :=
  let b := if b.size ≤ offset then b.resize memory (2 * max b.size offset % 2 ^ 64) true else b
  b.atPut offset value

inductive GrowthCall
  | resize (sizeInBits : Nat) (inResourceArea : Bool)
  | atPutGrow (offset : Nat) (value : Bool)
  deriving DecidableEq, Repr

def GrowthCall.run (memory : Allocation) (b : BitMap) : GrowthCall → BitMap
  | resize sizeInBits inResourceArea => b.resize memory sizeInBits inResourceArea
  | atPutGrow offset value => b.atPutGrow memory offset value

/-- The bit is in a word of the map and has the value. -/
def Reads (b : BitMap) (i : Nat) (value : Bool) : Prop :=
  wordIndex i < b.map.size ∧ b.at_ i = value

/-- What a call that goes from `b` to `b'` keeps, clears and puts. -/
structure GrowthPreserves (b : BitMap) (call : GrowthCall) (b' : BitMap) : Prop where
  keeps : ∀ i < b.size, i < b'.size → (∀ value, call ≠ .atPutGrow i value) → Reads b' i (b.at_ i)
  clear : ∀ i < b'.size, b.size ≤ i → (∀ value, call ≠ .atPutGrow i value) → Reads b' i false
  puts : ∀ offset value, call = .atPutGrow offset value → offset < b'.size ∧ Reads b' offset value

/-- The bitmap may be resized: sizes in words do not overflow, and no word is read after it has been
freed. -/
structure Resizable (b : BitMap) (sizeInBits : Nat) (inResourceArea : Bool) : Prop where
  oldSize : b.size ≤ 2 ^ 64 - 64
  newSize : sizeInBits ≤ 2 ^ 64 - 64
  copied : inResourceArea = true ∨ b.size = 0 ∨ sizeInBits = 0

/-- A bit of the last word is clear, unless it stays out of range. -/
def ClearAt (b : BitMap) (sizeInBits i : Nat) : Prop :=
  b.size ≤ i → i < sizeInBits → i < 64 * b.sizeInWords → b.at_ i = false

/-- The condition on a bitmap before a call. An offset of zero doubles to zero, and the bit at the
offset is put in any case. -/
def GrowthCall.Safe (b : BitMap) : GrowthCall → Prop
  | resize sizeInBits inResourceArea =>
    b.Resizable sizeInBits inResourceArea ∧ ∀ i, b.ClearAt sizeInBits i
  | atPutGrow offset _ => b.size ≤ offset →
    0 < offset ∧ b.Resizable (2 * offset) true ∧ ∀ i, i ≠ offset → b.ClearAt (2 * offset) i

/-- A condition on each call of a sequence, the bitmap before it and that after it. -/
def Along (P : BitMap → GrowthCall → BitMap → Prop) : BitMap → List (Allocation × GrowthCall) → Prop
  | _, [] => True
  | b, (memory, call) :: calls => P b call (call.run memory b) ∧ Along P (call.run memory b) calls

variable {b : BitMap} {memory : Allocation}

theorem idxSizeInWords_eq {size : Nat} (hsize : size ≤ 2 ^ 64 - 64) :
    idxSizeInWords size = (size + 63) / 64 := by
  rw [idxSizeInWords, wordIndex_eq, bitsPerWord, Nat.mod_eq_of_lt (by omega)]
  rfl

theorem size_resize (sizeInBits : Nat) (inResourceArea : Bool) :
    (b.resize memory sizeInBits inResourceArea).size = sizeInBits := by
  rw [resize]
  split
  · exact (updateWords_spec _ _ _ _).1
  · rfl

theorem map_size_resize {sizeInBits : Nat} (hsize : sizeInBits ≤ 2 ^ 64 - 64)
    (inResourceArea : Bool) :
    (b.resize memory sizeInBits inResourceArea).map.size = (sizeInBits + 63) / 64 := by
  rw [← idxSizeInWords_eq hsize, resize]
  split
  · rw [clearRangeOfWords, (updateWords_spec _ _ _ _).2.1, Array.size_ofFn]
  · exact Array.size_ofFn

theorem word_ofFn {count j : Nat} (f : Nat → BmWord) (size : Nat) (hj : j < count) :
    word ⟨Array.ofFn fun i : Fin count => f i, size⟩ j = f j := by
  rw [word, Array.getD_eq_getD_getElem?, Array.getElem?_ofFn, dif_pos hj, Option.getD_some]

/-- The words that are copied keep all their bits, the others are clear. -/
theorem bit_resize {sizeInBits : Nat} {inResourceArea : Bool}
    (h : b.Resizable sizeInBits inResourceArea) {i : Nat} (hi : i < sizeInBits) :
    (b.resize memory sizeInBits inResourceArea).bit i =
      (decide (i < 64 * b.sizeInWords) && b.bit i) := by
  have hnew := idxSizeInWords_eq h.newSize
  have hold : idxSizeInWords b.size = b.sizeInWords := by
    rw [idxSizeInWords_eq h.oldSize, sizeInWords_eq]
  have hcopied : i / 64 < b.sizeInWords → inResourceArea = true := by
    intro hlt
    rw [sizeInWords_eq] at hlt
    rcases h.copied with hres | hzero | hzero
    · exact hres
    · omega
    · omega
  have hword : i / 64 < idxSizeInWords sizeInBits := by omega
  have hmap := word_ofFn (copiedWord memory b (idxSizeInWords sizeInBits) inResourceArea) sizeInBits
    hword
  have hcopy : i / 64 < b.sizeInWords →
      copiedWord memory b (idxSizeInWords sizeInBits) inResourceArea (i / 64) =
        b.word (i / 64) := by
    intro hin
    rw [copiedWord, hold, if_pos (by omega), if_pos (hcopied hin)]
  rw [resize]
  dsimp only
  split
  next hgrow =>
    rw [clearRangeOfWords, bit_updateWords, Array.size_ofFn, hold]
    by_cases hin : i / 64 < b.sizeInWords
    · rw [if_neg (by omega), decide_eq_true (by omega), Bool.true_and, bit, bit, hmap, hcopy hin]
    · rw [if_pos (by omega), decide_eq_false (by omega), Bool.false_and, BitVec.getLsbD_zero]
  next hshrink =>
    have hin : i / 64 < b.sizeInWords := by omega
    rw [decide_eq_true (by omega), Bool.true_and, bit, bit, hmap, hcopy hin]

theorem resize_preserves {sizeInBits : Nat} {inResourceArea : Bool}
    (h : b.Resizable sizeInBits inResourceArea) {i : Nat} (hclear : b.ClearAt sizeInBits i)
    (hi : i < sizeInBits) :
    Reads (b.resize memory sizeInBits inResourceArea) i (decide (i < b.size) && b.at_ i) := by
  refine ⟨?_, ?_⟩
  · rw [map_size_resize h.newSize, wordIndex_eq]
    omega
  · rw [at_eq, bit_resize h hi, ← at_eq]
    have hwords := b.sizeInWords_eq
    by_cases hold : i < b.size
    · rw [decide_eq_true hold, decide_eq_true (by omega)]
    · by_cases hstale : i < 64 * b.sizeInWords
      · rw [hclear (by omega) hi hstale, Bool.and_false, Bool.and_false]
      · rw [decide_eq_false hold, decide_eq_false hstale]

theorem atPut_puts {offset : Nat} (hlt : offset / 64 < b.map.size) (value : Bool) :
    Puts value b offset (offset + 1) (b.atPut offset value) := by
  cases value
  · exact clearBit_puts hlt
  · exact setBit_puts hlt

theorem Puts.reads {value : Bool} {b' : BitMap} {offset : Nat}
    (h : Puts value b offset (offset + 1) b') (hlt : offset / 64 < b.map.size) :
    Reads b' offset value := by
  refine ⟨?_, ?_⟩
  · rw [h.map_size, wordIndex_eq]
    exact hlt
  · rw [at_eq, h.bit, if_pos (by omega)]

/-- The other bits read as before. -/
theorem Puts.reads_of_ne {value other : Bool} {b' : BitMap} {offset i : Nat}
    (h : Puts value b offset (offset + 1) b') (hne : i ≠ offset) (hreads : Reads b i other) :
    Reads b' i other := by
  refine ⟨?_, ?_⟩
  · rw [h.map_size]
    exact hreads.1
  · rw [at_eq, h.bit, if_neg (by omega), ← at_eq]
    exact hreads.2

/-- The step: a safe call keeps, clears and puts what it should, and leaves the words for the
bits. -/
theorem GrowthCall.Safe.preserves {call : GrowthCall} (hsafe : call.Safe b)
    (hwords : b.sizeInWords ≤ b.map.size) (memory : Allocation) :
    GrowthPreserves b call (call.run memory b) ∧
      (call.run memory b).sizeInWords ≤ (call.run memory b).map.size := by
  have hsize := b.sizeInWords_eq
  cases call with
  | resize sizeInBits inResourceArea =>
    obtain ⟨hresizable, hclear⟩ := hsafe
    have hnew : (b.resize memory sizeInBits inResourceArea).size = sizeInBits := size_resize _ _
    refine ⟨⟨fun i hi hi' _ => ?_, fun i hi hge _ => ?_, fun _ _ h => by cases h⟩, ?_⟩
    · have hreads := @resize_preserves b memory _ _ hresizable i (hclear i)
        (Nat.lt_of_lt_of_eq hi' hnew)
      rwa [decide_eq_true hi, Bool.true_and] at hreads
    · have hreads := @resize_preserves b memory _ _ hresizable i (hclear i)
        (Nat.lt_of_lt_of_eq hi hnew)
      rwa [decide_eq_false (by omega), Bool.false_and] at hreads
    · have heq : (b.resize memory sizeInBits inResourceArea).sizeInWords =
          (b.resize memory sizeInBits inResourceArea).map.size := by
        rw [sizeInWords_eq, map_size_resize hresizable.newSize, hnew]
      exact Nat.le_of_eq heq
  | atPutGrow offset value =>
    -- the bitmap that the bit is put into
    obtain ⟨grown, hrun, hoffset, hgrown, hreads⟩ : ∃ grown : BitMap,
        (GrowthCall.atPutGrow offset value).run memory b = grown.atPut offset value ∧
        offset < grown.size ∧ grown.sizeInWords ≤ grown.map.size ∧
        ∀ i < grown.size, i ≠ offset → Reads grown i (decide (i < b.size) && b.at_ i) := by
      rw [run, BitMap.atPutGrow]
      by_cases hge : b.size ≤ offset
      · obtain ⟨hpos, hresizable, hclear⟩ := hsafe hge
        have hdouble : 2 * max b.size offset % 2 ^ 64 = 2 * offset := by
          have := hresizable.newSize
          rw [Nat.max_eq_right hge]
          omega
        refine ⟨b.resize memory (2 * offset) true, by simp only [if_pos hge, hdouble], ?_, ?_, ?_⟩
        · have hnew : (b.resize memory (2 * offset) true).size = 2 * offset := size_resize _ _
          omega
        · exact Nat.le_of_eq (by
            rw [sizeInWords_eq, map_size_resize hresizable.newSize, size_resize])
        · intro i hi hne
          exact resize_preserves hresizable (hclear i hne)
            (Nat.lt_of_lt_of_eq hi (size_resize _ _))
      · refine ⟨b, by simp only [if_neg hge], by omega, hwords, fun i hi _ => ?_⟩
        rw [decide_eq_true hi, Bool.true_and, Reads, wordIndex_eq]
        exact ⟨by omega, rfl⟩
    have hgrownSize := grown.sizeInWords_eq
    have hlt : offset / 64 < grown.map.size := by omega
    have hputs := atPut_puts hlt value
    rw [hrun]
    refine ⟨⟨fun i hi hi' hother => ?_, fun i hi hge hother => ?_, fun offset' value' h => ?_⟩, ?_⟩
    · have hne : i ≠ offset := fun heq => hother value (heq ▸ rfl)
      have hkept := hreads i (Nat.lt_of_lt_of_eq hi' hputs.size) hne
      rw [decide_eq_true hi, Bool.true_and] at hkept
      exact hputs.reads_of_ne hne hkept
    · have hne : i ≠ offset := fun heq => hother value (heq ▸ rfl)
      have hkept := hreads i (Nat.lt_of_lt_of_eq hi hputs.size) hne
      rw [decide_eq_false (by omega), Bool.false_and] at hkept
      exact hputs.reads_of_ne hne hkept
    · cases h
      exact ⟨Nat.lt_of_lt_of_eq hoffset hputs.size.symm, hputs.reads hlt⟩
    · rw [sizeInWords_eq, hputs.size, hputs.map_size, ← sizeInWords_eq]
      exact hgrown

/-- In a sequence of safe calls each call keeps, clears and puts what it should. -/
theorem growthPreserves_along (b : BitMap) (hwords : b.sizeInWords ≤ b.map.size)
    (calls : List (Allocation × GrowthCall)) (hsafe : Along (fun b call _ => call.Safe b) b calls) :
    Along GrowthPreserves b calls := by
  induction calls generalizing b with
  | nil => trivial
  | cons first calls ih =>
    obtain ⟨memory, call⟩ := first
    obtain ⟨hpreserves, hwords'⟩ := hsafe.1.preserves hwords memory
    exact ⟨hpreserves, ih _ hwords' hsafe.2⟩

/-- Memory of zeros. -/
def zeroed : Allocation := ⟨fun _ => 0#64, fun _ => 0#64⟩

/-- A bit set at 15 of 20, cut off by a resize to 10, is back after one to 20. -/
theorem not_growthPreserves_stale :
    (⟨#[], 0⟩ : BitMap).sizeInWords ≤ (⟨#[], 0⟩ : BitMap).map.size ∧
      ¬Along GrowthPreserves ⟨#[], 0⟩ [(zeroed, .resize 20 true), (zeroed, .atPutGrow 15 true),
        (zeroed, .resize 10 true), (zeroed, .resize 20 true)] := by
  refine ⟨by decide, fun halong => ?_⟩
  have hlast := halong.2.2.2.1.clear 15 (by decide) (by decide) (fun _ h => by cases h)
  exact absurd hlast.2 (by decide)

/-- The bit at 80 is one that the last resize has left. -/
theorem growthPreserves_along_words :
    Along GrowthPreserves ⟨#[0x8000#64], 20⟩
      [(zeroed, .resize 70 true), (zeroed, .atPutGrow 80 true), (zeroed, .resize 70 true),
        (zeroed, .atPutGrow 80 false), (zeroed, .resize 16 true)] := by
  have hresize : GrowthCall.run zeroed ⟨#[0x8000#64], 20⟩ (.resize 70 true) =
      ⟨#[0x8000#64, 0#64], 70⟩ := by decide
  have hput : GrowthCall.run zeroed ⟨#[0x8000#64, 0#64], 70⟩ (.atPutGrow 80 true) =
      ⟨#[0x8000#64, 0x10000#64, 0#64], 160⟩ := by decide
  have hshrink : GrowthCall.run zeroed ⟨#[0x8000#64, 0x10000#64, 0#64], 160⟩ (.resize 70 true) =
      ⟨#[0x8000#64, 0x10000#64], 70⟩ := by decide
  have hput' : GrowthCall.run zeroed ⟨#[0x8000#64, 0x10000#64], 70⟩ (.atPutGrow 80 false) =
      ⟨#[0x8000#64, 0#64, 0#64], 160⟩ := by decide
  have hout : ∀ {size sizeInBits : Nat} {map : Array BmWord}, sizeInBits ≤ size →
      ∀ i, ClearAt ⟨map, size⟩ sizeInBits i :=
    fun hle i hge hlt => absurd (Nat.lt_of_lt_of_le hlt hle) (Nat.not_lt.mpr hge)
  refine growthPreserves_along _ (by decide) _
    ⟨⟨⟨by decide, by decide, Or.inl rfl⟩, fun i hi _ hlt => ?_⟩, ?_⟩
  · have hall : ∀ i < 64, 20 ≤ i → at_ ⟨#[0x8000#64], 20⟩ i = false := by decide
    exact hall i hlt hi
  rw [hresize]
  refine ⟨fun _ => ⟨by decide, ⟨by decide, by decide, Or.inl rfl⟩, fun i _ hi _ hlt => ?_⟩, ?_⟩
  · have hall : ∀ i < 128, 70 ≤ i → at_ ⟨#[0x8000#64, 0#64], 70⟩ i = false := by decide
    exact hall i hlt hi
  rw [hput]
  refine ⟨⟨⟨by decide, by decide, Or.inl rfl⟩, hout (by decide)⟩, ?_⟩
  rw [hshrink]
  refine ⟨fun _ => ⟨by decide, ⟨by decide, by decide, Or.inl rfl⟩, fun i hne hi _ hlt => ?_⟩, ?_⟩
  · have hall : ∀ i < 128, i ≠ 80 → 70 ≤ i →
        at_ ⟨#[0x8000#64, 0x10000#64], 70⟩ i = false := by decide
    exact hall i hlt hne hi
  rw [hput']
  exact ⟨⟨⟨by decide, by decide, Or.inl rfl⟩, hout (by decide)⟩, trivial⟩

end HotSpot.BitMap
