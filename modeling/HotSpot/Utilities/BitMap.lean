import Mathlib.Tactic.Common

/-! # Bitmaps

`BitMap` of `bitMap.hpp`: an array of 64-bit words with a number of bits, which need not
be a multiple of the width. Indices are natural numbers.
-/

namespace HotSpot

abbrev BmWord := BitVec 64

structure BitMap where
  /-- `_map` -/
  map : Array BmWord
  /-- `_size`, in bits. -/
  size : Nat
  deriving DecidableEq, Repr

namespace BitMap

def bitsPerWord : Nat := 64

def logBitsPerWord : Nat := 6

def noBits : BmWord := 0#64

def allBits : BmWord := BitVec.allOnes 64

def nthBit (n : Nat) : BmWord := if bitsPerWord ≤ n then 0#64 else 1#64 <<< n

def rightNBits (n : Nat) : BmWord := nthBit n - 1#64

def leftNBits (n : Nat) : BmWord :=
  rightNBits n <<< (if bitsPerWord ≤ n then 0 else bitsPerWord - n)

/-- The position of a bit within the word that contains it. -/
def bitInWord (bit : Nat) : Nat := bit &&& (bitsPerWord - 1)

/-- The mask that selects the bit. -/
def bitMask (bit : Nat) : BmWord := 1#64 <<< bitInWord bit

/-- The index of the word that contains the bit. -/
def wordIndex (bit : Nat) : Nat := bit >>> logBitsPerWord

/-- The first bit of a word. -/
def bitIndex (word : Nat) : Nat := word <<< logBitsPerWord

/-- `map(index)` -/
def word (b : BitMap) (index : Nat) : BmWord := b.map.getD index 0#64

def setWord (b : BitMap) (index : Nat) (val : BmWord) : BitMap :=
  { b with map := b.map.setIfInBounds index val }

def sizeInWords (b : BitMap) : Nat := wordIndex (b.size + bitsPerWord - 1)

/-! ## Loops over words -/

/-- The loops that change `count` words from `index` on. -/
def updateWords (f : Nat → BmWord → BmWord) : Nat → Nat → BitMap → BitMap
  | _, 0, b => b
  | index, count + 1, b =>
    updateWords f (index + 1) count (b.setWord index (f index (b.word index)))

/-- The same, with the flag whether a word has changed. -/
def updateWordsWithResult (f : Nat → BmWord → BmWord) : Nat → Nat → BitMap → Bool → BitMap × Bool
  | _, 0, b, changed => (b, changed)
  | index, count + 1, b, changed =>
    let temp := f index (b.word index)
    updateWordsWithResult f (index + 1) count (b.setWord index temp)
      (changed || temp != b.word index)

/-- The loops that return false at the first word that fails a test. -/
def allWords (test : Nat → Bool) : Nat → Nat → Bool
  | _, 0 => true
  | index, count + 1 => if test index then allWords test (index + 1) count else false

/-! ## Construction -/

def setRangeOfWords (b : BitMap) (beg end_ : Nat) : BitMap :=
  updateWords (fun _ _ => ~~~0#64) beg (end_ - beg) b

def clearRangeOfWords (b : BitMap) (beg end_ : Nat) : BitMap :=
  updateWords (fun _ _ => 0#64) beg (end_ - beg) b

/-- `BitMap(size_in_bits)`, which resizes a map of no words. The words are allocated with what
is in the memory. The number of words is a `Nat`: above 2 ^ 64 - 64 bits the sum of `idx_t` would
wrap. -/
def new (memory : Nat → BmWord) (sizeInBits : Nat) : BitMap :=
  let newSizeInWords := wordIndex (sizeInBits + bitsPerWord - 1)
  let b : BitMap := ⟨Array.ofFn fun i : Fin newSizeInWords => memory i, sizeInBits⟩
  b.clearRangeOfWords 0 b.sizeInWords

/-! ## Bits -/

def at_ (b : BitMap) (index : Nat) : Bool := b.word (wordIndex index) &&& bitMask index ≠ 0#64

def setBit (b : BitMap) (bit : Nat) : BitMap :=
  b.setWord (wordIndex bit) (b.word (wordIndex bit) ||| bitMask bit)

def clearBit (b : BitMap) (bit : Nat) : BitMap :=
  b.setWord (wordIndex bit) (b.word (wordIndex bit) &&& ~~~bitMask bit)

/-! ## Ranges -/

/-- Each bit in the mask is 0 if the bit is in the range, 1 if not in the range. -/
def invertedBitMaskForRange (beg end_ : Nat) : BmWord :=
  let mask := bitMask beg - 1#64 -- low (right) bits
  if bitInWord end_ ≠ 0 then mask ||| ~~~(bitMask end_ - 1#64) else mask -- high (left) bits

def setRangeWithinWord (b : BitMap) (beg end_ : Nat) : BitMap :=
  if beg ≠ end_ then
    b.setWord (wordIndex beg)
      (b.word (wordIndex beg) ||| ~~~invertedBitMaskForRange beg end_)
  else b

def clearRangeWithinWord (b : BitMap) (beg end_ : Nat) : BitMap :=
  if beg ≠ end_ then
    b.setWord (wordIndex beg) (b.word (wordIndex beg) &&& invertedBitMaskForRange beg end_)
  else b

/-- What `memset` makes of a word. -/
def memsetWord (c : BitVec 8) : BmWord := BitVec.replicate 8 c

def setLargeRangeOfWords (b : BitMap) (beg end_ : Nat) : BitMap :=
  updateWords (fun _ _ => memsetWord (~~~0#8)) beg (end_ - beg) b

def clearLargeRangeOfWords (b : BitMap) (beg end_ : Nat) : BitMap :=
  updateWords (fun _ _ => memsetWord 0#8) beg (end_ - beg) b

/-- The index of the first full word in a range. -/
def wordIndexRoundUp (b : BitMap) (bit : Nat) : Nat :=
  let bitRoundedUp := bit + (bitsPerWord - 1)
  -- Check for integer arithmetic overflow.
  if bit < bitRoundedUp then wordIndex bitRoundedUp else b.sizeInWords

/-- What `set_range` and `clear_range` share. -/
def putRange (withinWord ofWords : BitMap → Nat → Nat → BitMap) (b : BitMap) (beg end_ : Nat) :
    BitMap :=
  let begFullWord := b.wordIndexRoundUp beg
  let endFullWord := wordIndex end_
  if begFullWord < endFullWord then
    -- The range includes at least one full word.
    let b := withinWord b beg (bitIndex begFullWord)
    let b := ofWords b begFullWord endFullWord
    withinWord b (bitIndex endFullWord) end_
  else
    -- The range spans at most 2 partial words.
    let boundary := min (bitIndex begFullWord) end_
    withinWord (withinWord b beg boundary) boundary end_

/-- What `set_large_range` and `clear_large_range` share; they assert that the range includes
at least 32 words. -/
def putLargeRange (withinWord ofWords : BitMap → Nat → Nat → BitMap) (b : BitMap)
    (beg end_ : Nat) : BitMap :=
  let begFullWord := b.wordIndexRoundUp beg
  let endFullWord := wordIndex end_
  let b := withinWord b beg (bitIndex begFullWord)
  let b := ofWords b begFullWord endFullWord
  withinWord b (bitIndex endFullWord) end_

inductive RangeSizeHint where
  | unknownRange
  | smallRange
  | largeRange
  deriving DecidableEq, Repr

def setRange (b : BitMap) (beg end_ : Nat) : BitMap :=
  putRange setRangeWithinWord setRangeOfWords b beg end_

def clearRange (b : BitMap) (beg end_ : Nat) : BitMap :=
  putRange clearRangeWithinWord clearRangeOfWords b beg end_

def setLargeRange (b : BitMap) (beg end_ : Nat) : BitMap :=
  putLargeRange setRangeWithinWord setLargeRangeOfWords b beg end_

def clearLargeRange (b : BitMap) (beg end_ : Nat) : BitMap :=
  putLargeRange clearRangeWithinWord clearLargeRangeOfWords b beg end_

/-- `set_range` with a hint. -/
def setRangeHint (b : BitMap) (beg end_ : Nat) (hint : RangeSizeHint) : BitMap :=
  if hint = .smallRange ∧ end_ - beg = 1 then b.setBit beg
  else if hint = .largeRange then b.setLargeRange beg end_
  else b.setRange beg end_

/-- `clear_range` with a hint. -/
def clearRangeHint (b : BitMap) (beg end_ : Nat) (hint : RangeSizeHint) : BitMap :=
  if hint = .smallRange ∧ end_ - beg = 1 then b.clearBit beg
  else if hint = .largeRange then b.clearLargeRange beg end_
  else b.clearRange beg end_

/-! ## Set operations -/

variable (b other : BitMap)

def setUnion : BitMap := updateWords (fun i w => w ||| other.word i) 0 b.sizeInWords b

def setDifference : BitMap := updateWords (fun i w => w &&& ~~~other.word i) 0 b.sizeInWords b

def setIntersection : BitMap := updateWords (fun i w => w &&& other.word i) 0 b.sizeInWords b

def setUnionWithResult : BitMap × Bool :=
  updateWordsWithResult (fun i w => w ||| other.word i) 0 b.sizeInWords b false

def setDifferenceWithResult : BitMap × Bool :=
  updateWordsWithResult (fun i w => w &&& ~~~other.word i) 0 b.sizeInWords b false

def setIntersectionWithResult : BitMap × Bool :=
  updateWordsWithResult (fun i w => w &&& other.word i) 0 b.sizeInWords b false

def contains : Bool := allWords (fun i => b.word i ||| other.word i == b.word i) 0 b.sizeInWords

def intersects : Bool := !allWords (fun i => b.word i &&& other.word i == 0#64) 0 b.sizeInWords

def isSame : Bool := allWords (fun i => b.word i == other.word i) 0 b.sizeInWords

/-- The loops of `is_full` and `is_empty`, from a word on, with `rest` bits ahead. -/
def testWords (whole : BmWord) (last : BmWord → Nat → BmWord) (index rest : Nat) : Bool :=
  if bitsPerWord ≤ rest then
    if b.word index ≠ whole then false
    else testWords whole last (index + 1) (rest - bitsPerWord)
  else rest = 0 || last (b.word index) rest == whole
termination_by rest
decreasing_by simp only [bitsPerWord] at *; omega

def isFull : Bool := b.testWords allBits (fun w rest => w ||| ~~~rightNBits rest) 0 b.size

def isEmpty : Bool := b.testWords noBits (fun w rest => w &&& rightNBits rest) 0 b.size

/-! ## Searches -/

/-- The loop that finds the position of the 1-bit in `res`, which has one. -/
def findOne : Nat → BmWord → Nat → Nat
  | 0, _, resOffset => resOffset
  | fuel + 1, res, resOffset =>
    if res &&& 1#64 = 0#64 then findOne fuel (res >>> 1) (resOffset + 1) else resOffset

/-- The loop that finds the position of the 0-bit in `res`, which has one. -/
def findZero : Nat → BmWord → Nat → Nat
  | 0, _, resOffset => resOffset
  | fuel + 1, res, resOffset =>
    if res &&& 1#64 = 0#64 then resOffset else findZero fuel (res >>> 1) (resOffset + 1)

/-- The loop that skips over all words equal to `run`. -/
def findWord (run : BmWord) (find : Nat → BmWord → Nat → Nat) (rOffset : Nat) : Nat → Nat → Nat
  | _, 0 => rOffset
  | index, count + 1 =>
    if b.word index ≠ run then min (find bitsPerWord (b.word index) (bitIndex index)) rOffset
    else findWord run find rOffset (index + 1) count

def getNextOneOffset (lOffset rOffset : Nat) : Nat :=
  if lOffset = rOffset then lOffset
  else
    let index := wordIndex lOffset
    let rIndex := wordIndex (rOffset - 1) + 1
    -- check bits including and to the _left_ of offset's position
    let res := b.word index >>> bitInWord lOffset
    if res ≠ noBits then min (findOne bitsPerWord res lOffset) rOffset
    -- skip over all word length 0-bit runs
    else b.findWord noBits findOne rOffset (index + 1) (rIndex - (index + 1))

/-- The loop over words for an offset that ends a word. -/
def findWordAligned (rOffset : Nat) : Nat → Nat → Nat
  | _, 0 => rOffset
  | index, count + 1 =>
    if b.word index ≠ noBits then findOne bitsPerWord (b.word index) (bitIndex index)
    else findWordAligned rOffset (index + 1) count

/-- Like `getNextOneOffset`, for an `rOffset` that is a multiple of the width of a word. -/
def getNextOneOffsetAlignedRight (lOffset rOffset : Nat) : Nat :=
  if lOffset = rOffset then lOffset
  else
    let index := wordIndex lOffset
    let rIndex := wordIndex rOffset
    let res := b.word index >>> bitInWord lOffset
    if res ≠ noBits then findOne bitsPerWord res lOffset
    else b.findWordAligned rOffset (index + 1) (rIndex - (index + 1))

def wordAlignUp (bit : Nat) : Nat := (bit + (bitsPerWord - 1)) / bitsPerWord * bitsPerWord

/-- `par_set_bit` without a competitor: whether the bit has been changed, and the map. -/
def parSetBit (b : BitMap) (bit : Nat) : Bool × BitMap :=
  let newVal := b.word (wordIndex bit) ||| bitMask bit
  if newVal = b.word (wordIndex bit) then (false, b) else (true, b.setWord (wordIndex bit) newVal)

def getNextZeroOffset (lOffset rOffset : Nat) : Nat :=
  if lOffset = rOffset then lOffset
  else
    let index := wordIndex lOffset
    let rIndex := wordIndex (rOffset - 1) + 1
    let pos := bitInWord lOffset
    let res := (b.word index >>> pos) ||| leftNBits pos
    if res ≠ allBits then min (findZero bitsPerWord res lOffset) rOffset
    -- skip over all word length 1-bit runs
    else b.findWord allBits findZero rOffset (index + 1) (rIndex - (index + 1))

/-! ## Iteration -/

section Iterate

variable {σ : Type} (doBit : σ → Nat → Bool × σ)

/-- The inner loop of `iterate`, `count` bits before the right end. -/
def iterateWord (index : Nat) : Nat → BmWord → Nat → σ → Bool × σ
  | 0, _, _, s => (true, s)
  | count + 1, rest, offset, s =>
    if rest = noBits then (true, s)
    else if rest &&& 1#64 = 0#64 then iterateWord index count (rest >>> 1) (offset + 1) s
    else
      let (more, s) := doBit s offset
      if more then
        --  resample at each closure application
        let rest := b.word index >>> bitInWord offset
        iterateWord index count (rest >>> 1) (offset + 1) s
      else (false, s)

/-- The outer loop of `iterate`, `count` words before the last one. -/
def iterateWords (rightOffset : Nat) : Nat → Nat → Nat → σ → Bool × σ
  | _, 0, _, s => (true, s)
  | index, count + 1, offset, s =>
    if offset < rightOffset then
      let rest := b.word index >>> bitInWord offset
      let (more, s) := b.iterateWord doBit index (rightOffset - offset) rest offset s
      if more then iterateWords rightOffset (index + 1) count (bitIndex (index + 1)) s
      else (false, s)
    else (true, s)

/-- `iterate` with a closure that has a state and does not modify the map. -/
def iterate (leftOffset rightOffset : Nat) (s : σ) : Bool × σ :=
  let startIndex := wordIndex leftOffset
  let endIndex := min (wordIndex rightOffset + 1) b.sizeInWords
  b.iterateWords doBit rightOffset startIndex (endIndex - startIndex) leftOffset s

end Iterate

/-! ## Counting -/

/-- The inner loop of `num_set_bits`. -/
def skipZeroBits : Nat → BmWord → BmWord
  | 0, w => w
  | fuel + 1, w => if w &&& 1#64 = 0#64 then skipZeroBits fuel (w >>> 1) else w

/-- `num_set_bits`; a word has at most 64 bits to go through. -/
def numSetBitsLoop : Nat → BmWord → Nat → Nat
  | 0, _, bits => bits
  | fuel + 1, w, bits =>
    if w = 0#64 then bits
    else numSetBitsLoop fuel (skipZeroBits bitsPerWord w >>> 1) (bits + 1)

def numSetBits (w : BmWord) : Nat := numSetBitsLoop bitsPerWord w 0

/-- `init_pop_count_table` -/
def popCountTable : Array Nat := Array.ofFn fun i : Fin 256 => numSetBits (BitVec.ofNat 64 i)

def numSetBitsFromTable (c : BitVec 8) : Nat := popCountTable.getD c.toNat 0

/-- The loop over the bytes of a word. -/
def countBytes : Nat → BmWord → Nat → Nat
  | 0, _, sum => sum
  | count + 1, w, sum =>
    countBytes count (w >>> 8) (sum + numSetBitsFromTable ((w &&& 255#64).setWidth 8))

/-- The loop over the words. -/
def countWords : Nat → Nat → Nat → Nat
  | _, 0, sum => sum
  | index, count + 1, sum => countWords (index + 1) count (countBytes 8 (b.word index) sum)

def countOneBits : Nat := countWords b 0 b.sizeInWords 0

end BitMap

end HotSpot
